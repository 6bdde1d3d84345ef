import Mathlib.Tactic

/-!
# Byte memory holding objects of a fixed width

A cell is one byte: either raw, or one byte of a stored object. An object is
loaded only when all of its bytes are in place, so a store or a raw write that
overlaps an object destroys it. Loads therefore need the disjointness facts
that a layout invariant provides.
-/

set_option autoImplicit false

namespace Wasabi.ObjectMemory

inductive Cell (α : Type*) where
  | raw (byte : UInt8)
  | part (object : α) (index : ℕ)
  deriving DecidableEq

abbrev Memory (α : Type*) := ℕ → Cell α

variable {α : Type*} [DecidableEq α]

omit [DecidableEq α] in
/-- Store the object at the `width` bytes from `a` on. -/
def store (width a : ℕ) (x : α) (m : Memory α) : Memory α :=
  fun b => if a ≤ b ∧ b < a+width then .part x (b-a) else m b

omit [DecidableEq α] in
/-- Write one raw byte. -/
def poke (a : ℕ) (byte : UInt8) (m : Memory α) : Memory α :=
  fun b => if b = a then .raw byte else m b

def load (width : ℕ) (m : Memory α) (a : ℕ) : Option α :=
  match m a with
  | .part x _ => if ∀ k < width, m (a+k) = .part x k then some x else none
  | .raw _ => none

theorem load_eq_some (width : ℕ) (hw : 0 < width) (m : Memory α) (a : ℕ) (x : α) :
    load width m a = some x ↔ ∀ k < width, m (a+k) = .part x k := by
  constructor
  · intro h
    unfold load at h
    split at h
    · split_ifs at h with hall
      cases h
      exact hall
    · cases h
  · intro h
    have h0 : m a = .part x 0 := h 0 hw
    simp only [load, h0]
    exact if_pos h

theorem load_store_same (width : ℕ) (hw : 0 < width) (m : Memory α) (a : ℕ) (x : α) :
    load width (store width a x m) a = some x := by
  apply (load_eq_some width hw _ a x).mpr
  intro k hk
  simp [store, hk]

/-- Loading depends only on the bytes of the object. -/
theorem load_congr (width : ℕ) (hw : 0 < width) (m m' : Memory α) (a : ℕ)
    (h : ∀ b, a ≤ b → b < a+width → m' b = m b) : load width m' a = load width m a := by
  ext x
  rw [load_eq_some width hw, load_eq_some width hw]
  constructor
  · intro hx k hk
    rw [← h (a+k) (by omega) (by omega)]
    exact hx k hk
  · intro hx k hk
    rw [h (a+k) (by omega) (by omega)]
    exact hx k hk

omit [DecidableEq α] in
theorem store_outside (width a : ℕ) (x : α) (m : Memory α) (b : ℕ)
    (h : b < a ∨ a+width ≤ b) : store width a x m b = m b :=
  if_neg (by omega)

omit [DecidableEq α] in
theorem poke_outside (a : ℕ) (byte : UInt8) (m : Memory α) (b : ℕ) (h : b ≠ a) :
    poke a byte m b = m b := if_neg h

theorem load_store_disjoint (width : ℕ) (hw : 0 < width) (m : Memory α) (a b : ℕ) (x : α)
    (h : b+width ≤ a ∨ a+width ≤ b) :
    load width (store width a x m) b = load width m b :=
  load_congr width hw _ _ b (fun c _ _ => store_outside width a x m c (by omega))

theorem load_poke_disjoint (width : ℕ) (hw : 0 < width) (m : Memory α) (a b : ℕ) (byte : UInt8)
    (h : a < b ∨ b+width ≤ a) : load width (poke a byte m) b = load width m b :=
  load_congr width hw _ _ b (fun c _ _ => poke_outside a byte m c (by omega))

end Wasabi.ObjectMemory
