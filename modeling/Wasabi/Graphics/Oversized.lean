import Wasabi.Graphics.FillRect

/-!
# Oversized rectangles

The first corner is tested before the sums are formed, the extents are not
tested at all. A sum beyond `i64` stops the kernel, unless an earlier test has
already rejected the rectangle.
-/

set_option autoImplicit false

namespace Wasabi.Graphics.Oversized
open Wasabi.Rust Wasabi.Outcome Wasabi.Graphics.Pixels Wasabi.Graphics.Painting
open Wasabi.Graphics.FillRect

theorem fillRect_returned (color : UInt32) (px py w h : ℤ) (b b' : Bitmap) (r : Except String Unit)
    (hret : fillRect color px py w h b = .ok (r,b')) : SumsFit b px py w h := by
  cases hout : outOfRange b px py w h with
  | ok outside => exact outOfRange_returned b px py w h outside hout
  | error e =>
    have hfault : (observe (fun b => outOfRange b px py w h) : Draw Bool) b = .error e := by
      rw [observe, hout]
      rfl
    rw [fillRect, run_bind_fault _ _ b e hfault] at hret
    cases hret

/-- Corners in range bound the sums. -/
theorem inRange_corners (b : Bitmap) (px py w h : ℤ)
    (hc : CornersInRange b px py w h) (hf : SumsFit b px py w h) : CornersFit px py w h := by
  obtain ⟨h1,h2⟩ := hf.right hc.1
  have hx : isInXRange b (px+w-1) = true :=
    (inXRange_iff b _).mpr ⟨hc.2.1,hc.2.2.1⟩
  obtain ⟨h3,h4⟩ := hf.bottom hc.1 hx
  exact ⟨⟨h1.le,h2⟩,⟨by omega,by omega⟩,⟨h3.le,h4⟩,⟨by omega,by omega⟩⟩

/-- Filling returns, and rejects every rectangle that leaves the range,
exactly if the tests stop before a sum that is not an `i64`. -/
theorem rejects_oversized_iff (b : Bitmap) (hb : BufferOk b) (color : UInt32) (px py w h : ℤ) :
    (∃ result b', fillRect color px py w h b = .ok (result,b') ∧
      ((∃ p ∈ rect px py w h, ¬ InRange b p.1 p.2) →
        result = .error "Out of Range" ∧ b' = b)) ↔
    (InRange b px py → (i64Min < px+w ∧ px+w ≤ i64Max) ∧
      (isInXRange b (px+w-1) = true → i64Min < py+h ∧ py+h ≤ i64Max)) := by
  constructor
  · rintro ⟨result,b',hret,-⟩ hin
    have hf := fillRect_returned color px py w h b b' result hret
    exact ⟨hf.right hin,hf.bottom hin⟩
  · intro hsums
    have hf : SumsFit b px py w h := ⟨fun hin => (hsums hin).1,fun hin => (hsums hin).2⟩
    by_cases hc : CornersInRange b px py w h
    · obtain ⟨b',hrun,-⟩ := fillRect_paints color px py w h
        (inRange_corners b px py w h hc hf) b hb hc
      refine ⟨_,b',hrun,?_⟩
      rintro ⟨p,hp,hout⟩
      exact absurd (rect_inRange b px py w h hc p hp) hout
    · exact ⟨_,b,fillRect_rejects color px py w h b hf hc,fun _ => ⟨rfl,rfl⟩⟩

theorem rejects_oversized_iff_padded :
    ∃ result b', fillRect 0xff0000 1 0 5 1 padded = .ok (result,b') ∧
      ((∃ p ∈ rect 1 0 5 1, ¬ InRange padded p.1 p.2) →
        result = .error "Out of Range" ∧ b' = padded) :=
  (rejects_oversized_iff padded ⟨rfl,rfl,by decide⟩ 0xff0000 1 0 5 1).mpr (by decide)

/-- The widest rectangle stops the kernel before the test of its right edge. -/
theorem oversized_panics :
    fillRect 0xff0000 1 0 i64Max 1 padded = .error (.panic "attempt to add with overflow") ∧
      ∃ p ∈ rect 1 0 i64Max 1, ¬ InRange padded p.1 p.2 :=
  ⟨rfl,(3,0),by simp [rect, i64Max],by decide⟩

end Wasabi.Graphics.Oversized
