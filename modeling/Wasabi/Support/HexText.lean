import Wasabi.Support.Templates

/-!
# Hexadecimal text

Digits of either case and numbers of a fixed width, most significant digit
first. Reading a digit or a number gives back what was written.
-/

set_option autoImplicit false

namespace Wasabi.HexText
open Wasabi.Templates

/-- A digit of either case. -/
def hexDigit (upper : Bool) (d : ℕ) : Char :=
  if d < 10 then Char.ofNat (48+d) else Char.ofNat ((if upper then 55 else 87)+d)

def toDigit (c : Char) : Option ℕ :=
  if '0' ≤ c ∧ c ≤ '9' then some (c.toNat-48)
  else if 'a' ≤ c ∧ c ≤ 'f' then some (c.toNat-87)
  else if 'A' ≤ c ∧ c ≤ 'F' then some (c.toNat-55)
  else none

/-- The last `width` digits of a number, of either case. -/
def digitsOf (upper : Bool) : ℕ → ℕ → List Char
  | 0, _ => []
  | width+1, n => digitsOf upper width (n/16)++[hexDigit upper (n%16)]

abbrev digits : ℕ → ℕ → List Char := digitsOf true

theorem toDigit_fin (upper : Bool) (d : Fin 16) : toDigit (hexDigit upper d) = some d.val := by
  revert upper d
  decide

theorem toDigit_hexDigit (upper : Bool) (d : ℕ) (h : d < 16) :
    toDigit (hexDigit upper d) = some d :=
  toDigit_fin upper ⟨d,h⟩

/-- A character without a digit value is not a digit. -/
theorem hexDigit_ne (upper : Bool) (d : ℕ) (h : d < 16) (c : Char) (hc : toDigit c = none) :
    hexDigit upper d ≠ c := by
  rintro rfl
  rw [toDigit_hexDigit upper d h] at hc
  cases hc

@[simp] theorem digitsOf_length (upper : Bool) (width n : ℕ) :
    (digitsOf upper width n).length = width := by
  induction width generalizing n with
  | zero => rfl
  | succ width ih => rw [digitsOf, List.length_append, ih, List.length_singleton]

theorem digitsOf_notMem (upper : Bool) (width n : ℕ) (c : Char) (hc : toDigit c = none) :
    c ∉ digitsOf upper width n := by
  induction width generalizing n with
  | zero => exact List.not_mem_nil
  | succ width ih =>
    rw [digitsOf, List.mem_append, List.mem_singleton, not_or]
    exact ⟨ih _,(hexDigit_ne upper _ (Nat.mod_lt _ (by decide)) c hc).symm⟩

/-- The number that a text of digits stands for. -/
def fromDigits (text : List Char) : ℕ := text.foldl (fun n c => 16*n+(toDigit c).getD 0) 0

theorem fromDigits_digitsOf (upper : Bool) (width n : ℕ) :
    fromDigits (digitsOf upper width n) = n%16^width := by
  induction width generalizing n with
  | zero => simp [digitsOf, fromDigits, Nat.mod_one]
  | succ width ih =>
    have hlast := toDigit_hexDigit upper (n%16) (Nat.mod_lt _ (by decide))
    have hrest := ih (n/16)
    unfold fromDigits at hrest ⊢
    rw [digitsOf, List.foldl_append, hrest, List.foldl_cons, List.foldl_nil, hlast,
      Option.getD_some, pow_succ', Nat.mod_mul, Nat.add_comm]

def isHexDigit (c : Char) : Bool := (toDigit c).isSome

theorem digitsOf_isHexDigit (upper : Bool) (width n : ℕ) :
    ∀ c ∈ digitsOf upper width n, isHexDigit c = true := by
  induction width generalizing n with
  | zero => simp [digitsOf]
  | succ width ih =>
    intro c hc
    rcases List.mem_append.mp hc with hc | hc
    · exact ih _ c hc
    · rw [List.mem_singleton.mp hc, isHexDigit,
        toDigit_hexDigit upper _ (Nat.mod_lt _ (by decide))]
      rfl

/-- A number with at least `width` digits. -/
def paddedOf (upper : Bool) (width n : ℕ) : List Char :=
  digitsOf upper (max width (Nat.log 16 n+1)) n

abbrev padded (width n : ℕ) : List Char := paddedOf true width n

theorem fromDigits_padded (upper : Bool) (width n : ℕ) :
    fromDigits (paddedOf upper width n) = n := by
  rw [paddedOf, fromDigits_digitsOf]
  apply Nat.mod_eq_of_lt
  exact (Nat.lt_pow_succ_log_self (by decide) n).trans_le
    (Nat.pow_le_pow_right (by decide) (le_max_right _ _))

theorem padded_digits (upper : Bool) (width n : ℕ) :
    ∀ c ∈ paddedOf upper width n, isHexDigit c = true :=
  digitsOf_isHexDigit upper _ n

/-- A number that is followed by no digit. -/
theorem padded_split (upper : Bool) (width n m : ℕ) (sep rest rest' : List Char)
    (hsep : ∃ c s, sep = c::s ∧ isHexDigit c = false)
    (h : paddedOf upper width n++(sep++rest) = paddedOf upper width m++(sep++rest')) :
    n = m ∧ rest = rest' := by
  obtain ⟨c,s,rfl,hc⟩ := hsep
  obtain ⟨hdigits,hrest⟩ := split_value isHexDigit _ _ c c _ _ (padded_digits upper width n)
    (padded_digits upper width m) hc hc h
  have hnumber := congrArg fromDigits hdigits
  rw [fromDigits_padded, fromDigits_padded] at hnumber
  exact ⟨hnumber,List.append_cancel_left (List.cons.inj hrest).2⟩

end Wasabi.HexText
