import Wasabi.Graphics.FillRect
import Wasabi.Graphics.DrawLine
import Wasabi.Graphics.Text

/-!
# Pictures of several colours

A picture gives the colour of the last painting at a place, if there was one.
A program that paints one set after the other shows the picture in which each
set covers the ones before it.
-/

set_option autoImplicit false

namespace Wasabi.Graphics.Pictures
open Wasabi.Rust Wasabi.Outcome Wasabi.DigitalLine
open Wasabi.Graphics.Pixels Wasabi.Graphics.Painting Wasabi.Graphics.FillRect
open Wasabi.Graphics.DrawLine Wasabi.Graphics.Font Wasabi.Graphics.Text

abbrev Picture := ℤ × ℤ → Option UInt32

def blank : Picture := fun _ => none

/-- The bitmap shows the picture, and what the picture leaves free is as before. -/
structure Shown (pic : Picture) (b b' : Bitmap) : Prop where
  shape : b' = {b with buf := b'.buf}
  lines : ∀ p, pic p ≠ none → InLine b p
  colored : ∀ p color, pic p = some color → HasColor color b' p
  others : ∀ i, (∀ p, pic p ≠ none → i ∉ pixelBytes b p) → b'.buf i = b.buf i

theorem shown_blank (b : Bitmap) : Shown blank b b :=
  ⟨rfl,fun _ h => absurd rfl h,fun _ _ h => (nomatch h),fun _ _ => rfl⟩

theorem shown_inRange (pic : Picture) (b b' : Bitmap) (h : Shown pic b b') (x y : ℤ) :
    InRange b' x y ↔ InRange b x y := by
  rw [h.shape, InRange, InRange]

theorem shown_bufferOk (pic : Picture) (b b' : Bitmap) (h : Shown pic b b') (hb : BufferOk b) :
    BufferOk b' := by
  rw [h.shape]
  exact ⟨hb.bytes,hb.size,hb.bound⟩

theorem shown_bytes (pic : Picture) (b b' : Bitmap) (h : Shown pic b b') (p : ℤ × ℤ) :
    pixelBytes b' p = pixelBytes b p := by
  rw [h.shape, pixelBytes, pixelBytes]

theorem shown_inLine (pic : Picture) (b b' : Bitmap) (h : Shown pic b b') (p : ℤ × ℤ) :
    InLine b' p ↔ InLine b p := by
  rw [h.shape, InLine, InLine]

/-- A place that the picture leaves free keeps its bytes. -/
theorem shown_free (pic : Picture) (b b' : Bitmap) (h : Shown pic b b') (q : ℤ × ℤ)
    (hq : InLine b q) (hfree : pic q = none) (i : ℕ) (hi : i ∈ pixelBytes b q) :
    b'.buf i = b.buf i := by
  apply h.others
  intro p hp hip
  have hne : p ≠ q := by
    rintro rfl
    exact hp hfree
  exact Set.disjoint_left.mp (pixelBytes_disjoint b p q (h.lines p hp) hq hne) hip hi

/-- Places of one colour. -/
def solid (color : UInt32) (covers : ℤ × ℤ → Bool) : Picture := fun p =>
  if covers p then some color else none

/-- The upper picture, and the lower one where the upper one leaves it free. -/
def onTop (upper lower : Picture) : Picture := fun p => (upper p).or (lower p)

theorem onTop_none_iff (upper lower : Picture) (p : ℤ × ℤ) :
    onTop upper lower p = none ↔ upper p = none ∧ lower p = none := Option.or_eq_none_iff

theorem painted_shown (color : UInt32) (S : Set (ℤ × ℤ)) (b b' : Bitmap) (h : Painted color S b b')
    (hS : ∀ p ∈ S, InLine b p) (covers : ℤ × ℤ → Bool) (hc : ∀ p, covers p = true ↔ p ∈ S) :
    Shown (solid color covers) b b' := by
  have hsome : ∀ p, solid color covers p ≠ none → p ∈ S := by
    intro p hne
    by_contra hp
    exact hne (if_neg (fun ht => hp ((hc p).mp ht)))
  refine ⟨h.shape,fun p hne => hS p (hsome p hne),?_,?_⟩
  · intro p c hcolor
    have hp := hsome p (by rw [hcolor]; exact Option.some_ne_none c)
    rw [solid, if_pos ((hc p).mpr hp)] at hcolor
    cases hcolor
    exact (hasColor_painted_iff color S b b' h hS p (hS p hp)).mpr (Or.inl hp)
  · intro i hi
    apply h.outside
    intro p hp
    apply hi
    rw [solid, if_pos ((hc p).mpr hp)]
    exact Option.some_ne_none color

/-- A second picture over the first one. -/
theorem shown_trans (pic pic' : Picture) (b b1 b2 : Bitmap) (h : Shown pic b b1)
    (h' : Shown pic' b1 b2) : Shown (onTop pic' pic) b b2 := by
  have hbytes := shown_bytes pic b b1 h
  refine ⟨?_,?_,?_,?_⟩
  · have hshape := h'.shape
    rw [h.shape] at hshape
    exact hshape
  · intro p hne
    cases hp : pic' p with
    | some c =>
      exact (shown_inLine pic b b1 h p).mp (h'.lines p (by rw [hp]; exact Option.some_ne_none c))
    | none =>
      rw [onTop, hp, Option.none_or] at hne
      exact h.lines p hne
  · intro p c hc
    cases hp : pic' p with
    | some d =>
      rw [onTop, hp, Option.some_or] at hc
      exact h'.colored p c (hp.trans hc)
    | none =>
      rw [onTop, hp, Option.none_or] at hc
      have hline := (shown_inLine pic b b1 h p).mpr
        (h.lines p (by rw [hc]; exact Option.some_ne_none c))
      intro i hi
      rw [shown_bytes pic' b1 b2 h'] at hi
      rw [shown_free pic' b1 b2 h' p hline hp i hi]
      exact h.colored p c hc i hi
  · intro i hi
    have hupper : ∀ p, pic' p ≠ none → i ∉ pixelBytes b1 p := by
      intro p hne hip
      exact hi p (fun h0 => hne ((onTop_none_iff _ _ p).mp h0).1) (hbytes p ▸ hip)
    rw [h'.others i hupper]
    apply h.others
    intro p hne
    exact hi p (fun h0 => hne ((onTop_none_iff _ _ p).mp h0).2)

/-- A loop shows the pictures of its turns, each over the ones before it. -/
theorem forM_shown {α : Type} (f : α → Draw Unit) (pic : α → Picture) (l : List α) (lower : Picture)
    (b0 b : Bitmap) (hb : BufferOk b0) (hl : Shown lower b0 b)
    (h : ∀ a ∈ l, ∀ b1, BufferOk b1 → (∀ x y, InRange b1 x y ↔ InRange b0 x y) →
      ∃ b2, f a b1 = .ok (.ok (),b2) ∧ Shown (pic a) b1 b2) :
    ∃ b', l.forM f b = .ok (.ok (),b') ∧
      Shown (l.foldl (fun below a => onTop (pic a) below) lower) b0 b' := by
  induction l generalizing lower b with
  | nil => exact ⟨b,rfl,hl⟩
  | cons a l ih =>
    obtain ⟨b1,h1,hs1⟩ := h a List.mem_cons_self b (shown_bufferOk lower b0 b hl hb)
      (shown_inRange lower b0 b hl)
    obtain ⟨b2,h2,hs2⟩ := ih (onTop (pic a) lower) b1 (shown_trans lower (pic a) b0 b b1 hl hs1)
      (fun c hc => h c (List.mem_cons_of_mem a hc))
    exact ⟨b2,(run_bind (f a) (fun _ => l.forM f) b b1 () h1).trans h2,hs2⟩

end Wasabi.Graphics.Pictures
