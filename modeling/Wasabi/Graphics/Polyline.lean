import Wasabi.Graphics.DrawLine

/-!
# End points of lines

The loop of `draw_line` stops one step before the end, so the end point of a
line is left to whatever else is drawn. Along a polyline each next segment
paints the vertex it starts from, and only the last vertex is left over.
-/

set_option autoImplicit false

namespace Wasabi.Graphics.Polyline
open Wasabi.Rust Wasabi.Outcome Wasabi.DigitalLine
open Wasabi.Graphics.Pixels Wasabi.Graphics.Painting Wasabi.Graphics.DrawLine

def edges (pts : List (ℤ × ℤ)) : List ((ℤ × ℤ) × (ℤ × ℤ)) := pts.zip pts.tail

/-- One call of `draw_line` for each segment. -/
def polyline (color : UInt32) (pts : List (ℤ × ℤ)) : Draw Unit :=
  (edges pts).forM (fun e => drawLine color e.1.1 e.1.2 e.2.1 e.2.2)

/-- The steps of all segments, each without its end. -/
def trails (pts : List (ℤ × ℤ)) : Set (ℤ × ℤ) := {r | ∃ e ∈ edges pts, r ∈ trail e.1 e.2}

theorem edges_ends (pts : List (ℤ × ℤ)) (e : (ℤ × ℤ) × (ℤ × ℤ)) (h : e ∈ edges pts) :
    e.1 ∈ pts ∧ e.2 ∈ pts :=
  ⟨(List.of_mem_zip h).1,List.mem_of_mem_tail (List.of_mem_zip h).2⟩

theorem trails_cons (p q : ℤ × ℤ) (rest : List (ℤ × ℤ)) :
    trails (p::q::rest) = trail p q ∪ trails (q::rest) := by
  ext r
  simp [trails, edges]

/-- From every vertex other than the last one a segment starts. -/
theorem vertex_mem (pts : List (ℤ × ℤ)) (last v : ℤ × ℤ) (hl : pts.getLast? = some last)
    (hv : v ∈ pts) (hne : v ≠ last) : v ∈ trails pts := by
  induction pts with
  | nil => cases hv
  | cons p rest ih =>
    cases rest with
    | nil =>
      simp only [List.getLast?_singleton, Option.some.injEq] at hl
      simp only [List.mem_singleton] at hv
      exact absurd (hv.trans hl) hne
    | cons q rest =>
      rw [List.getLast?_cons_cons] at hl
      rw [trails_cons]
      by_cases hq : v ∈ q::rest
      · exact Or.inr (ih hl hq)
      · have hvp : v = p := (List.mem_cons.mp hv).resolve_right hq
        have hpq : p ≠ q := fun h => hq (by simp [hvp, h])
        exact Or.inl (hvp ▸ start_mem p q hpq)

theorem trails_inLine (b : Bitmap) (pts : List (ℤ × ℤ)) (h : ∀ v ∈ pts, InRange b v.1 v.2) :
    ∀ r ∈ trails pts, InLine b r := by
  rintro r ⟨e,he,hr⟩
  obtain ⟨h1,h2⟩ := edges_ends pts e he
  exact trail_inLine b e.1 e.2 (h _ h1) (h _ h2) r hr

theorem polyline_paints (color : UInt32) (b : Bitmap) (hb : BufferOk b) (pts : List (ℤ × ℤ))
    (h : ∀ v ∈ pts, InRange b v.1 v.2) : Paints color (trails pts) (polyline color pts) b := by
  apply forM_paints color _ (fun e => trail e.1 e.2) (edges pts) b hb
  intro e he b' hb' hr
  obtain ⟨h1,h2⟩ := edges_ends pts e he
  exact drawLine_paints b' e.1 e.2 ((hr _ _).mpr (h _ h1)) ((hr _ _).mpr (h _ h2)) hb' color

theorem line_ends (color : UInt32) (b : Bitmap) (hb : BufferOk b) (p q : ℤ × ℤ)
    (hp : InRange b p.1 p.2) (hq : InRange b q.1 q.2) :
    ∃ b', drawLine color p.1 p.2 q.1 q.2 b = .ok (.ok (),b') ∧
      (HasColor color b' q ↔ HasColor color b q) ∧ (p ≠ q → HasColor color b' p) := by
  obtain ⟨b',hrun,hpaint⟩ := drawLine_paints b p q hp hq hb color
  have hin := trail_inLine b p q hp hq
  have hend := hasColor_painted_iff color _ b b' hpaint hin q (inRange_inLine b q hq)
  have hstart := hasColor_painted_iff color _ b b' hpaint hin p (inRange_inLine b p hp)
  refine ⟨b',hrun,?_,?_⟩
  · rw [hend, or_iff_right (end_notMem p q)]
  · intro hne
    exact hstart.mpr (Or.inl (start_mem p q hne))

/-- A line joins its end points exactly if the second one had the colour
already, and a polyline all its vertices exactly if the last one had it or
lies on one of the segments without their ends. -/
theorem joins_ends_iff (color : UInt32) (b : Bitmap) (hb : BufferOk b) :
    (∀ p q : ℤ × ℤ, InRange b p.1 p.2 → InRange b q.1 q.2 →
      ∃ b', drawLine color p.1 p.2 q.1 q.2 b = .ok (.ok (),b') ∧
        (HasColor color b' p ∧ HasColor color b' q ↔ HasColor color b q)) ∧
    (∀ (pts : List (ℤ × ℤ)) (last : ℤ × ℤ), (∀ v ∈ pts, InRange b v.1 v.2) →
      2 ≤ pts.length → pts.getLast? = some last →
      ∃ b', polyline color pts b = .ok (.ok (),b') ∧
        ((∀ v ∈ pts, HasColor color b' v) ↔
          HasColor color b last ∨ ∃ e ∈ edges pts, last ∈ trail e.1 e.2)) := by
  constructor
  · intro p q hp hq
    obtain ⟨b',hrun,hend,hstart⟩ := line_ends color b hb p q hp hq
    refine ⟨b',hrun,?_⟩
    rw [hend]
    constructor
    · exact And.right
    · intro hc
      by_cases hpq : p = q
      · rw [hpq]
        exact ⟨hend.mpr hc,hc⟩
      · exact ⟨hstart hpq,hc⟩
  · intro pts last hin _ hl
    obtain ⟨b',hrun,hpaint⟩ := polyline_paints color b hb pts hin
    have hmem := List.mem_of_getLast? hl
    have hiff := fun v hv => hasColor_painted_iff color _ b b' hpaint (trails_inLine b pts hin) v
      (inRange_inLine b v (hin v hv))
    refine ⟨b',hrun,?_⟩
    constructor
    · intro hall
      exact ((hiff last hmem).mp (hall last hmem)).symm
    · intro hc v hv
      rw [hiff v hv]
      by_cases hne : v = last
      · rw [hne]
        exact hc.symm
      · exact Or.inl (vertex_mem pts last v hl hv hne)

theorem joins_ends_iff_black :
    ∃ b', drawLine 0xffffff 0 0 2 1 black = .ok (.ok (),b') ∧
      (HasColor 0xffffff b' (0,0) ∧ HasColor 0xffffff b' (2,1) ↔
        HasColor 0xffffff black (2,1)) :=
  (joins_ends_iff 0xffffff black ⟨rfl,rfl,by decide⟩).1 (0,0) (2,1) (by decide) (by decide)

/-- The end of a line on a black bitmap stays black, and a line that is only
a point draws nothing. -/
theorem end_missed :
    (∃ b', drawLine 0xffffff 0 0 2 1 black = .ok (.ok (),b') ∧ ¬ HasColor 0xffffff b' (2,1)) ∧
      ∃ b', drawLine 0xffffff 1 1 1 1 black = .ok (.ok (),b') ∧ ¬ HasColor 0xffffff b' (1,1) := by
  have hb : BufferOk black := ⟨rfl,rfl,by decide⟩
  have hblack : ∀ p, ¬ HasColor 0xffffff black p := by
    intro p h
    have h0 := h (offset black.pixelsPerLine p) ⟨le_rfl,Nat.lt_add_of_pos_right (by decide)⟩
    rw [offset_mod] at h0
    have hne : (0 : UInt8) ≠ colorByte 0xffffff 0 := by decide
    exact hne h0
  obtain ⟨b1,hrun1,hend1,-⟩ := line_ends 0xffffff black hb (0,0) (2,1) (by decide) (by decide)
  obtain ⟨b2,hrun2,hend2,-⟩ := line_ends 0xffffff black hb (1,1) (1,1) (by decide) (by decide)
  exact ⟨⟨b1,hrun1,fun h => hblack _ (hend1.mp h)⟩,⟨b2,hrun2,fun h => hblack _ (hend2.mp h)⟩⟩

end Wasabi.Graphics.Polyline
