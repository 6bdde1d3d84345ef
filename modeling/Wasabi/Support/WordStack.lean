import Mathlib.Tactic

/-!
# Consecutive words in a memory

Memory maps the addresses of words to words, with addresses modulo `2^64`. A
list of words is held from an address upwards, eight bytes apart. Writing
below a held list does not disturb it unless the address space wraps around,
which no list of realistic length makes it do.
-/

set_option autoImplicit false

namespace Wasabi.WordStack

abbrev Word := BitVec 64

abbrev WordMemory := Word → Word

/-- The address of the word number `i` from `a` on. -/
def slot (a : Word) (i : ℕ) : Word := a+BitVec.ofNat 64 (8*i)

def Holds (m : WordMemory) : Word → List Word → Prop
  | _, [] => True
  | a, w::ws => m a = w ∧ Holds m (a+8) ws

def storeWords (m : WordMemory) : Word → List Word → WordMemory
  | _, [] => m
  | a, w::ws => Function.update (storeWords m (a+8) ws) a w

@[simp] theorem slot_zero (a : Word) : slot a 0 = a := by simp [slot]

theorem slot_add (a : Word) (i j : ℕ) : slot (slot a i) j = slot a (i+j) := by
  rw [slot, slot, slot, Nat.mul_add, BitVec.ofNat_add, BitVec.add_assoc]

theorem slot_succ (a : Word) (i : ℕ) : slot (a+8) i = slot a (i+1) := by
  rw [Nat.add_comm, ← slot_add]
  rfl

theorem slot_next (a : Word) (i : ℕ) : slot a i+8 = slot a (i+1) := by
  rw [← slot_add]
  rfl

theorem slot_injective (a : Word) (i j : ℕ) (hi : i < 2^61) (hj : j < 2^61)
    (h : slot a i = slot a j) : i = j := by
  unfold slot at h
  bv_omega

theorem holds_slot (m : WordMemory) (a : Word) (ws : List Word) :
    Holds m a ws ↔ ∀ i (h : i < ws.length), m (slot a i) = ws[i] := by
  induction ws generalizing a with
  | nil => simp [Holds]
  | cons w ws ih =>
    rw [Holds, ih]
    constructor
    · rintro ⟨h0,hs⟩ i hi
      cases i with
      | zero => simpa using h0
      | succ i =>
        rw [← slot_succ]
        exact hs i (by simpa using hi)
    · intro h
      refine ⟨?_,?_⟩
      · have h0 := h 0 (by simp)
        rwa [slot_zero] at h0
      intro i hi
      rw [slot_succ]
      exact h (i+1) (by simpa using hi)

theorem holds_congr (m m' : WordMemory) (a : Word) (ws : List Word)
    (hm : ∀ i < ws.length, m' (slot a i) = m (slot a i)) (h : Holds m a ws) : Holds m' a ws := by
  rw [holds_slot] at h ⊢
  intro i hi
  rw [hm i hi]
  exact h i hi

theorem holds_append (m : WordMemory) (a : Word) (vs ws : List Word) :
    Holds m a (vs++ws) ↔ Holds m a vs ∧ Holds m (slot a vs.length) ws := by
  induction vs generalizing a with
  | nil => simp [Holds]
  | cons v vs ih => rw [List.cons_append, Holds, Holds, ih, slot_succ, List.length_cons, and_assoc]

theorem store_other (m : WordMemory) (a x : Word) (ws : List Word)
    (hx : ∀ i < ws.length, x ≠ slot a i) : storeWords m a ws x = m x := by
  induction ws generalizing a with
  | nil => rfl
  | cons w ws ih =>
    have h0 : x ≠ a := by simpa using hx 0 (by simp)
    rw [storeWords, Function.update_of_ne h0]
    apply ih
    intro i hi
    rw [slot_succ]
    exact hx (i+1) (by simpa using hi)

theorem holds_store (m : WordMemory) (a : Word) (ws : List Word) (hw : ws.length < 2^61) :
    Holds (storeWords m a ws) a ws := by
  induction ws generalizing a with
  | nil => trivial
  | cons w ws ih =>
    rw [List.length_cons] at hw
    refine ⟨Function.update_self _ _ _,?_⟩
    apply holds_congr _ _ _ _ _ (ih (a+8) (by omega))
    intro i hi
    rw [storeWords, Function.update_of_ne]
    intro he
    rw [slot_succ] at he
    have h := slot_injective a (i+1) 0 (by omega) (by omega) (by rw [he, slot_zero])
    omega

/-- Words stored below a held list leave it alone. -/
theorem holds_below (m : WordMemory) (a : Word) (vs ws : List Word) (n : ℕ) (hn : vs.length ≤ n)
    (hw : n+ws.length < 2^61) (h : Holds m (slot a n) ws) :
    Holds (storeWords m a vs) (slot a n) ws := by
  apply holds_congr _ _ _ _ _ h
  intro i hi
  apply store_other
  intro j hj he
  rw [slot_add] at he
  have h := slot_injective a (n+i) j (by omega) (by omega) he
  omega

/-- Pushing a word extends the held list downwards. -/
theorem holds_push (m : WordMemory) (a w : Word) (ws : List Word) (hw : ws.length+1 < 2^61)
    (h : Holds m a ws) : Holds (Function.update m (a-8) w) (a-8) (w::ws) := by
  have ha : slot (a-8) 1 = a := by
    rw [slot]
    bv_omega
  have ha' : a-8+8 = a := by bv_omega
  refine ⟨Function.update_self _ _ _,?_⟩
  have hb := holds_below m (a-8) [w] ws 1 (by simp) (by omega) (by rwa [ha])
  rw [ha] at hb
  rw [ha']
  exact hb

end Wasabi.WordStack
