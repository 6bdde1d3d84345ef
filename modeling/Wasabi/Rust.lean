import Wasabi.Support.WordBits

/-!
# Rust evaluation

The kernel is booted from its debug build, so integer overflow panics. A
computation ends with a value or with a fault, and undefined behaviour is a
fault of its own: no result is invented for it. Loops of the source without
a bound take fuel, and running out of fuel is a fault too.
-/

set_option autoImplicit false

namespace Wasabi.Rust
open Wasabi.WordBits

inductive Fault where
  | panic (message : String)
  | undefinedBehaviour
  | outOfMemory
  | outOfFuel
  deriving DecidableEq, Repr

abbrev Eval (α : Type) := Except Fault α

def usizeMax : ℕ := 2^64-1

def isizeMax : ℕ := 2^63-1

def checkedAdd (a b : ℕ) : Eval ℕ :=
  if a+b ≤ usizeMax then .ok (a+b) else .error (.panic "attempt to add with overflow")

def checkedSub (a b : ℕ) : Eval ℕ :=
  if b ≤ a then .ok (a-b) else .error (.panic "attempt to subtract with overflow")

def checkedMul (a b : ℕ) : Eval ℕ :=
  if a*b ≤ usizeMax then .ok (a*b) else .error (.panic "attempt to multiply with overflow")

def saturatingSub (a b : ℕ) : ℕ := a-b

def wrappingSub (a b : ℕ) : ℕ := if b ≤ a then a-b else 2^64-(b-a)

def i64Min : ℤ := -2^63

def i64Max : ℤ := 2^63-1

def InI64 (x : ℤ) : Prop := i64Min ≤ x ∧ x ≤ i64Max

instance (x : ℤ) : Decidable (InI64 x) := instDecidableAnd

def addI64 (a b : ℤ) : Eval ℤ :=
  if InI64 (a+b) then .ok (a+b) else .error (.panic "attempt to add with overflow")

def subI64 (a b : ℤ) : Eval ℤ :=
  if InI64 (a-b) then .ok (a-b) else .error (.panic "attempt to subtract with overflow")

def mulI64 (a b : ℤ) : Eval ℤ :=
  if InI64 (a*b) then .ok (a*b) else .error (.panic "attempt to multiply with overflow")

def addI32 (a b : ℤ) : Eval ℤ :=
  if -2^31 ≤ a+b ∧ a+b ≤ 2^31-1 then .ok (a+b)
  else .error (.panic "attempt to add with overflow")

/-- Division truncates towards zero. -/
def divI64 (a b : ℤ) : Eval ℤ :=
  if b = 0 then .error (.panic "attempt to divide by zero")
  else if InI64 (a.tdiv b) then .ok (a.tdiv b)
  else .error (.panic "attempt to divide with overflow")

/-- `i64::abs`. -/
def absI64 (a : ℤ) : Eval ℤ :=
  if InI64 |a| then .ok |a| else .error (.panic "attempt to negate with overflow")

/-- `x as usize` for an `i64`. -/
def asUsize (x : ℤ) : ℕ := (x%2^64).toNat

/-- `start..stop` for `i64`. -/
def rangeI64 (start stop : ℤ) : List ℤ :=
  (List.range (stop-start).toNat).map (fun k : ℕ => start+(k : ℤ))

def leadingZeros (x : ℕ) : ℕ := 64-bitLength x

def checkedShl (x n : ℕ) : Option ℕ := if n < 64 then some ((x <<< n)%2^64) else none

/-- `Option::ok_or`. -/
def okOr {α : Type} (x : Option α) (message : String) : Except String α :=
  match x with
  | some a => .ok a
  | none => .error message

/-- The message of `Result::expect`, with the error in its debug format. The
errors of the kernel have no characters to escape. -/
def expectMessage (message error : String) : String := message++": \""++error++"\""

def assert (condition : Bool) (message : String) : Eval Unit :=
  if condition then .ok () else .error (.panic message)

/-- A place that does not hold a value of the expected type is not read. -/
def deref {α : Type} : Option α → Eval α
  | some x => .ok x
  | none => .error .undefinedBehaviour

@[simp] theorem ok_bind {α β : Type} (a : α) (f : α → Eval β) :
    ((Except.ok a : Eval α) >>= f) = f a := rfl

@[simp] theorem pure_eq {α : Type} (a : α) : (pure a : Eval α) = .ok a := rfl

@[simp] theorem deref_some {α : Type} (x : α) : deref (some x) = .ok x := rfl

theorem checkedAdd_ok (a b : ℕ) (h : a+b < 2^64) : checkedAdd a b = .ok (a+b) := by
  rw [checkedAdd, if_pos (by unfold usizeMax; omega)]

theorem checkedSub_ok (a b : ℕ) (h : b ≤ a) : checkedSub a b = .ok (a-b) := if_pos h

theorem checkedMul_ok (a b : ℕ) (h : a*b < 2^64) : checkedMul a b = .ok (a*b) := by
  rw [checkedMul, if_pos (by unfold usizeMax; omega)]

theorem checkedAdd_returned (a b s : ℕ) (h : checkedAdd a b = .ok s) : a+b < 2^64 ∧ s = a+b := by
  unfold checkedAdd usizeMax at h
  split_ifs at h with hle
  cases h
  exact ⟨by omega,rfl⟩

theorem checkedSub_returned (a b d : ℕ) (h : checkedSub a b = .ok d) : b ≤ a ∧ d = a-b := by
  unfold checkedSub at h
  split_ifs at h with hle
  cases h
  exact ⟨hle,rfl⟩

theorem addI64_ok (a b : ℤ) (h : InI64 (a+b)) : addI64 a b = .ok (a+b) := if_pos h

theorem subI64_ok (a b : ℤ) (h : InI64 (a-b)) : subI64 a b = .ok (a-b) := if_pos h

theorem mulI64_ok (a b : ℤ) (h : InI64 (a*b)) : mulI64 a b = .ok (a*b) := if_pos h

theorem addI32_ok (a b : ℤ) (h : -2^31 ≤ a+b ∧ a+b ≤ 2^31-1) : addI32 a b = .ok (a+b) := if_pos h

theorem addI64_returned (a b s : ℤ) (h : addI64 a b = .ok s) : InI64 (a+b) ∧ s = a+b := by
  unfold addI64 at h
  split_ifs at h with hin
  cases h
  exact ⟨hin,rfl⟩

theorem subI64_returned (a b d : ℤ) (h : subI64 a b = .ok d) : InI64 (a-b) ∧ d = a-b := by
  unfold subI64 at h
  split_ifs at h with hin
  cases h
  exact ⟨hin,rfl⟩

theorem divI64_ok (a b : ℤ) (hb : b ≠ 0) (h : InI64 (a.tdiv b)) :
    divI64 a b = .ok (a.tdiv b) := by
  rw [divI64, if_neg hb, if_pos h]

theorem absI64_ok (a : ℤ) (h : InI64 |a|) : absI64 a = .ok |a| := if_pos h

theorem asUsize_ok (x : ℤ) (h0 : 0 ≤ x) (h : x ≤ i64Max) : asUsize x = x.toNat := by
  unfold i64Max at h
  rw [asUsize, Int.emod_eq_of_lt h0 (by omega)]

theorem mem_rangeI64 (start stop x : ℤ) : x ∈ rangeI64 start stop ↔ start ≤ x ∧ x < stop := by
  rw [rangeI64, List.mem_map]
  constructor
  · rintro ⟨k,hk,rfl⟩
    rw [List.mem_range] at hk
    omega
  · rintro ⟨h1,h2⟩
    exact ⟨(x-start).toNat,List.mem_range.mpr (by omega),by omega⟩

theorem assert_ok (p : Prop) [Decidable p] (message : String) (h : p) :
    assert p message = .ok () := by
  rw [assert, decide_eq_true h, if_pos rfl]

theorem ok_not_fault {α : Type} (x : Eval α) (e : Fault) (h : x.isOk = true) : x ≠ .error e := by
  rintro rfl
  cases h

/-- A computation that returned was the composition of two that returned. -/
theorem bind_ok {α β : Type} (x : Eval α) (f : α → Eval β) (b : β) (h : x >>= f = .ok b) :
    ∃ a, x = .ok a ∧ f a = .ok b := by
  cases x with
  | error e => cases h
  | ok a => exact ⟨a,rfl,h⟩

theorem bind_not_fault {α β : Type} (x : Eval α) (f : α → Eval β) (e : Fault)
    (hx : x ≠ .error e) (hf : ∀ a, f a ≠ .error e) : x >>= f ≠ .error e := by
  cases x with
  | error e' =>
    intro h
    cases h
    exact hx rfl
  | ok a => exact hf a

end Wasabi.Rust
