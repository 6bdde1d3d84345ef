import Mathlib.Tactic

/-!
# Masks, alignment and powers of two in a machine word

Words are their unsigned values. A mask with the low bits cleared rounds an
address down, and the bit length of a predecessor gives the least power of
two above a value. Nothing here refers to a particular program.
-/

set_option autoImplicit false

namespace Wasabi.WordBits

/-- Bitwise complement of an unsigned word of width `w`. -/
def complement (w x : ℕ) : ℕ := 2^w-1-x

theorem complement_mask (w k : ℕ) (hk : k ≤ w) :
    complement w (2^k-1) = (2^(w-k)-1) <<< k := by
  have hp : 2^w = 2^(w-k)*2^k := by rw [← pow_add, Nat.sub_add_cancel hk]
  have hq : 0 < 2^k := by positivity
  rw [complement, Nat.shiftLeft_eq, Nat.sub_mul, ← hp]
  omega

/-- Masking with the complement of `2^k-1` rounds down to a multiple of `2^k`. -/
theorem and_complement_mask (w k x : ℕ) (hk : k ≤ w) (hx : x < 2^w) :
    x &&& complement w (2^k-1) = x-x%2^k := by
  have hr : x-x%2^k = (x >>> k) <<< k := by
    have hd := Nat.div_add_mod x (2^k)
    rw [Nat.shiftLeft_eq, Nat.shiftRight_eq_div_pow, Nat.mul_comm]
    omega
  rw [complement_mask w k hk, hr]
  apply Nat.eq_of_testBit_eq
  intro i
  simp only [Nat.testBit_and, Nat.testBit_shiftLeft, Nat.testBit_shiftRight,
    Nat.testBit_two_pow_sub_one]
  by_cases hik : k ≤ i
  · have hi : k+(i-k) = i := by omega
    by_cases hiw : i < w
    · simp [hik, hi, show i-k < w-k by omega]
    · have hb : x.testBit i = false :=
        Nat.testBit_lt_two_pow (lt_of_lt_of_le hx (Nat.pow_le_pow_right (by decide) (by omega)))
      simp [hi, hb]
  · simp [hik]

/-- A word with its low bits clear and a small flag word share no bit. -/
theorem or_low (k x b : ℕ) (hx : x%2^k = 0) (hb : b < 2^k) : x ||| b = x+b := by
  have hm : 2^k*(x/2^k) = x := Nat.mul_div_cancel' (Nat.dvd_of_mod_eq_zero hx)
  have h := Nat.two_pow_add_eq_or_of_lt hb (x/2^k)
  rw [hm] at h
  exact h.symm

/-- Flags in the low bits are read off a word whose other part is aligned. -/
theorem or_and_low (k x b f : ℕ) (hx : x%2^k = 0) (hf : f < 2^k) : (x ||| b) &&& f = b &&& f := by
  have hm : 2^k*(x/2^k) = x := Nat.mul_div_cancel' (Nat.dvd_of_mod_eq_zero hx)
  apply Nat.eq_of_testBit_eq
  intro i
  rw [Nat.testBit_and, Nat.testBit_and, Nat.testBit_or]
  by_cases hi : i < k
  · have hz : x.testBit i = false := by
      rw [← hm, Nat.testBit_two_pow_mul]
      simp [hi]
    rw [hz, Bool.false_or]
  · have hz : f.testBit i = false :=
      Nat.testBit_lt_two_pow (lt_of_lt_of_le hf (Nat.pow_le_pow_right (by decide) (by omega)))
    rw [hz, Bool.and_false, Bool.and_false]

def alignDown (a x : ℕ) : ℕ := x-x%a

theorem alignDown_le (a x : ℕ) : alignDown a x ≤ x := Nat.sub_le _ _

theorem alignDown_dvd (a x : ℕ) : a ∣ alignDown a x := Nat.dvd_sub_mod x

theorem alignDown_lt (a x : ℕ) (ha : 0 < a) : x < alignDown a x+a := by
  have h := Nat.mod_lt x ha
  have hm := Nat.mod_le x a
  unfold alignDown
  omega

/-- The number of significant bits of `x`. -/
def bitLength (x : ℕ) : ℕ := if x = 0 then 0 else Nat.log2 x+1

theorem bitLength_le_iff (x n : ℕ) : bitLength x ≤ n ↔ x < 2^n := by
  unfold bitLength
  by_cases hx : x = 0
  · simp [hx]
  · rw [if_neg hx, Nat.add_one_le_iff]
    exact Nat.log2_lt hx

/-- `2^(bitLength (v-1))` is the least power of two that is at least `v`. -/
theorem pow_bitLength_bounds (v : ℕ) (hv : 0 < v) :
    v ≤ 2^bitLength (v-1) ∧ 2^bitLength (v-1) < 2*v := by
  have hu := (bitLength_le_iff (v-1) _).mp le_rfl
  refine ⟨by omega, ?_⟩
  rcases Nat.eq_zero_or_pos (bitLength (v-1)) with h0 | hp
  · rw [h0]
    omega
  · have hl : ¬ v-1 < 2^(bitLength (v-1)-1) := by
      rw [← bitLength_le_iff]
      omega
    have hs : 2^bitLength (v-1) = 2*2^(bitLength (v-1)-1) := by
      rw [← pow_succ']
      congr 1
      omega
    have hone : 1 ≤ 2^(bitLength (v-1)-1) := Nat.one_le_two_pow
    omega

/-- The least power of two from `v` on. -/
theorem least_two_pow (v : ℕ) : IsLeast {r | (∃ k, r = 2^k) ∧ v ≤ r} (2^bitLength (v-1)) := by
  rcases Nat.eq_zero_or_pos v with rfl | hv
  · refine ⟨⟨⟨_,rfl⟩,Nat.zero_le _⟩,?_⟩
    rintro _ ⟨⟨k,rfl⟩,-⟩
    exact Nat.one_le_two_pow
  · obtain ⟨hle,hlt⟩ := pow_bitLength_bounds v hv
    refine ⟨⟨⟨_,rfl⟩,hle⟩,?_⟩
    rintro _ ⟨⟨k,rfl⟩,hk⟩
    by_contra hn
    have hkb : k+1 ≤ bitLength (v-1) := (Nat.pow_lt_pow_iff_right (by decide)).mp (not_le.mp hn)
    have hp : 2^(k+1) ≤ 2^bitLength (v-1) := Nat.pow_le_pow_right (by decide) hkb
    rw [pow_succ] at hp
    omega

theorem least_two_pow_lt (v r : ℕ) (hv : 0 < v)
    (h : IsLeast {p | (∃ k, p = 2^k) ∧ v ≤ p} r) : r < 2*v := by
  rw [h.unique (least_two_pow v)]
  exact (pow_bitLength_bounds v hv).2

section Round
variable {α : Type} [Preorder α] (P : α → Prop)

/-- Rounding up to a property keeps the order. -/
theorem least_from_mono (v w r s : α) (hr : IsLeast {p | P p ∧ v ≤ p} r)
    (hs : IsLeast {p | P p ∧ w ≤ p} s) (h : v ≤ w) : r ≤ s :=
  hr.2 ⟨hs.1.1,h.trans hs.1.2⟩

/-- What has the property is already rounded. -/
theorem least_from_self (r : α) (hr : P r) : IsLeast {p | P p ∧ r ≤ p} r :=
  ⟨⟨hr,le_rfl⟩,fun _ hp => hp.2⟩

end Round

theorem two_pow_dvd_max (i j : ℕ) : 2^i ∣ max (2^j) (2^i) := by
  rcases Nat.le_total (2^j) (2^i) with h | h
  · rw [Nat.max_eq_right h]
  · rw [Nat.max_eq_left h]
    exact Nat.pow_dvd_pow 2 ((Nat.pow_le_pow_iff_right (by decide)).mp h)

theorem max_two_pow (i j : ℕ) : max (2^i) (2^j) = 2^max i j := by
  rcases Nat.le_total i j with h | h
  · rw [Nat.max_eq_right h, Nat.max_eq_right (Nat.pow_le_pow_right (by decide) h)]
  · rw [Nat.max_eq_left h, Nat.max_eq_left (Nat.pow_le_pow_right (by decide) h)]

end Wasabi.WordBits
