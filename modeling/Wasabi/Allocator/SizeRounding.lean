import Wasabi.Allocator.FirstFit

/-!
# Rounding the size of a request

The shift is the bit length of the predecessor. For zero the predecessor wraps
to the largest word, and then as for every size above the highest bit the
shift has the width of a word and is refused. Every other size is rounded to
the least power of two from it on, which is all that the allocator uses.
-/

set_option autoImplicit false

namespace Wasabi.Allocator.SizeRounding
open Wasabi.Rust Wasabi.WordBits Wasabi.Allocator.FirstFit

theorem leadingZeros_shift (x : ℕ) (hx : 2^63 ≤ x) : 64-leadingZeros x = 64 := by
  have hn : ¬ bitLength x ≤ 63 := by
    rw [bitLength_le_iff]
    omega
  unfold leadingZeros
  generalize bitLength x = n at hn
  omega

theorem roundUp_error (v : ℕ) (h : v = 0 ∨ 2^63 < v) (hv : v < 2^64) :
    roundUpToNearestPow2 v = .error "Out of range" := by
  have hw : 2^63 ≤ wrappingSub v 1 := by
    unfold wrappingSub
    split_ifs <;> omega
  rw [roundUpToNearestPow2, leadingZeros_shift _ hw]
  rfl

theorem roundUp_ok (v : ℕ) (h0 : 0 < v) (hv : v ≤ 2^63) :
    roundUpToNearestPow2 v = .ok (2^bitLength (v-1)) := by
  have hb : bitLength (v-1) ≤ 63 := by
    rw [bitLength_le_iff]
    omega
  have hw : wrappingSub v 1 = v-1 := if_pos h0
  have hp : 2^bitLength (v-1) < 2^64 := Nat.pow_lt_pow_right (by decide) (by omega)
  have hs : 64-leadingZeros (v-1) = bitLength (v-1) := by
    unfold leadingZeros
    omega
  rw [roundUpToNearestPow2, hw, hs, checkedShl, if_pos (by omega), Nat.shiftLeft_eq,
    Nat.one_mul, Nat.mod_eq_of_lt hp]
  rfl

/-- Exactly the sizes up to the highest bit are rounded, each to the least
power of two from it on. -/
theorem roundUp_iff (v : ℕ) (hv : v < 2^64) (r : ℕ) : roundUpToNearestPow2 v = .ok r ↔
    (0 < v ∧ v ≤ 2^63) ∧ IsLeast {p | p.isPowerOfTwo ∧ v ≤ p} r := by
  by_cases h : 0 < v ∧ v ≤ 2^63
  · rw [roundUp_ok v h.1 h.2, and_iff_right h]
    constructor
    · intro heq
      cases heq
      exact least_two_pow v
    · intro hr
      rw [hr.unique (least_two_pow v)]
  · rw [roundUp_error v (by omega) hv]
    constructor
    · intro heq
      cases heq
    · intro hr
      exact absurd hr.1 h

/-- A rounded size is at most the highest bit, so it is rounded to itself. -/
theorem roundUp_idempotent (v : ℕ) (hv : v < 2^64) (r : ℕ)
    (h : roundUpToNearestPow2 v = .ok r) : roundUpToNearestPow2 r = .ok r := by
  obtain ⟨⟨h0,htop⟩,hr⟩ := (roundUp_iff v hv r).mp h
  have hge : v ≤ r := hr.1.2
  have hle : r ≤ 2^63 := hr.2 ⟨⟨63,rfl⟩,htop⟩
  apply (roundUp_iff r (by omega) r).mpr
  exact ⟨⟨by omega,hle⟩,least_from_self Nat.isPowerOfTwo r hr.1.1⟩

theorem roundUp_monotone (v w : ℕ) (hv : v < 2^64) (hw : w < 2^64) (h : v ≤ w) (r s : ℕ)
    (hr : roundUpToNearestPow2 v = .ok r) (hs : roundUpToNearestPow2 w = .ok s) : r ≤ s := by
  obtain ⟨-,hleast⟩ := (roundUp_iff v hv r).mp hr
  obtain ⟨-,hleast'⟩ := (roundUp_iff w hw s).mp hs
  exact least_from_mono Nat.isPowerOfTwo v w r s hleast hleast' h

/-- Size rounding over all words: the least power of two where there is one in
a word, an error elsewhere. It keeps the order and leaves its results alone. -/
theorem round_up_least (v : ℕ) (hv : v < 2^64) :
    (1 ≤ v → v ≤ 2^63 → ∃ r, roundUpToNearestPow2 v = .ok r ∧ r.isPowerOfTwo ∧ v ≤ r ∧
      r < 2*v ∧ ∀ p, p.isPowerOfTwo → v ≤ p → r ≤ p) ∧
    (v = 0 ∨ 2^63 < v → roundUpToNearestPow2 v = .error "Out of range") ∧
    (∀ w, w < 2^64 → v ≤ w → ∀ r s, roundUpToNearestPow2 v = .ok r →
      roundUpToNearestPow2 w = .ok s → r ≤ s) ∧
    ∀ r, roundUpToNearestPow2 v = .ok r → roundUpToNearestPow2 r = .ok r := by
  constructor
  · intro h0 htop
    have hrun := roundUp_ok v h0 htop
    obtain ⟨-,hr⟩ := (roundUp_iff v hv _).mp hrun
    exact ⟨_,hrun,hr.1.1,hr.1.2,least_two_pow_lt v _ h0 hr,fun p hp hle => hr.2 ⟨hp,hle⟩⟩
  · exact ⟨fun h => roundUp_error v h hv,
      fun w hw hle r s hr hs => roundUp_monotone v w hv hw hle r s hr hs,
      roundUp_idempotent v hv⟩

theorem round_up_least_five :
    (∃ r, roundUpToNearestPow2 5 = .ok r ∧ r.isPowerOfTwo ∧ 5 ≤ r ∧ r < 2*5 ∧
      ∀ p, p.isPowerOfTwo → 5 ≤ p → r ≤ p) ∧
    (∀ r s, roundUpToNearestPow2 5 = .ok r → roundUpToNearestPow2 (2^63) = .ok s → r ≤ s) ∧
    roundUpToNearestPow2 (2^63+1) = .error "Out of range" := by
  obtain ⟨hok,-,hmono,-⟩ := round_up_least 5 (by decide)
  obtain ⟨-,herror,-,-⟩ := round_up_least (2^63+1) (by decide)
  exact ⟨hok (by decide) (by decide),hmono (2^63) (by decide) (by decide),
    herror (Or.inr (by decide))⟩

example : (List.range 10).map roundUpToNearestPow2 = [.error "Out of range", .ok 1, .ok 2, .ok 4,
    .ok 4, .ok 8, .ok 8, .ok 8, .ok 8, .ok 16] := by
  decide

/-- A size out of range is refused before the header is read. -/
theorem provide_refuses (m : HeaderMemory) (self size align : ℕ) (hv : size < 2^64)
    (h : size = 0 ∨ 2^63 < size) : provide m self size align = .ok (m,none) := by
  rw [provide, roundUp_error size h hv]
  rfl

end Wasabi.Allocator.SizeRounding
