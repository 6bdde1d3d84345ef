import Mathlib.Tactic

/-!
# Singly linked lists in a store

A segment relates a cursor, the list of what its nodes show and the cursor
left at the end. It reads the store only at the nodes it passes, so an update
elsewhere leaves it alone, and two segments compose at a common cursor.
-/

set_option autoImplicit false

namespace Wasabi.LinkedList

variable {A N β : Type*} (next : N → Option A) (place : β → A) (Shows : N → β → Prop)

def Segment (read : A → Option N) : Option A → List β → Option A → Prop
  | cursor, [], stop => cursor = stop
  | cursor, b::bs, stop => cursor = some (place b) ∧
      ∃ n, read (place b) = some n ∧ Shows n b ∧ Segment read (next n) bs stop

/-- A whole list ends at the empty cursor. -/
def Chain (read : A → Option N) (first : Option A) (bs : List β) : Prop :=
  Segment next place Shows read first bs none

theorem segment_append (read : A → Option N) (c stop : Option A) (bs cs : List β) :
    Segment next place Shows read c (bs++cs) stop ↔
      ∃ mid, Segment next place Shows read c bs mid ∧
        Segment next place Shows read mid cs stop := by
  induction bs generalizing c with
  | nil => simp [Segment]
  | cons b bs ih =>
    simp only [List.cons_append, Segment, ih]
    constructor
    · rintro ⟨hc,n,hn,hs,mid,h1,h2⟩
      exact ⟨mid,⟨hc,n,hn,hs,h1⟩,h2⟩
    · rintro ⟨mid,⟨hc,n,hn,hs,h1⟩,h2⟩
      exact ⟨hc,n,hn,hs,mid,h1,h2⟩

theorem segment_congr (read read' : A → Option N) (c stop : Option A) (bs : List β)
    (h : ∀ b ∈ bs, read' (place b) = read (place b))
    (hs : Segment next place Shows read c bs stop) : Segment next place Shows read' c bs stop := by
  induction bs generalizing c with
  | nil => exact hs
  | cons b bs ih =>
    obtain ⟨hc,n,hn,hb,ht⟩ := hs
    exact ⟨hc,n,(h b (by simp)).trans hn,hb,ih _ (fun d hd => h d (by simp [hd])) ht⟩

theorem segment_mem (read : A → Option N) (c stop : Option A) (bs : List β)
    (hs : Segment next place Shows read c bs stop) (b : β) (hb : b ∈ bs) :
    ∃ n, read (place b) = some n ∧ Shows n b := by
  induction bs generalizing c with
  | nil => cases hb
  | cons d bs ih =>
    obtain ⟨-,n,hn,hd,ht⟩ := hs
    rcases List.mem_cons.mp hb with rfl | hb
    · exact ⟨n,hn,hd⟩
    · exact ih _ ht hb

/-- A store that keeps every link may change what the nodes show. -/
theorem segment_map (read read' : A → Option N) (f : β → β) (c stop : Option A) (bs : List β)
    (hf : ∀ b, place (f b) = place b)
    (h : ∀ b ∈ bs, ∀ n, read (place b) = some n → Shows n b →
      ∃ n', read' (place b) = some n' ∧ next n' = next n ∧ Shows n' (f b))
    (hs : Segment next place Shows read c bs stop) :
    Segment next place Shows read' c (bs.map f) stop := by
  induction bs generalizing c with
  | nil => exact hs
  | cons b bs ih =>
    obtain ⟨hc,n,hn,hb,ht⟩ := hs
    obtain ⟨n',hn',hl,hb'⟩ := h b (by simp) n hn hb
    refine ⟨by rw [hf]; exact hc,n',by rw [hf]; exact hn',hb',?_⟩
    rw [hl]
    exact ih _ (fun d hd => h d (by simp [hd])) ht

end Wasabi.LinkedList
