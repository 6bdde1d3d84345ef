import Wasabi.Graphics.Painting

/-!
# Filling a rectangle

Two corners are tested, and then every pixel between them is written without
a test. The range is convex, so the loops stay inside it and paint what the
tested primitive would paint.
-/

set_option autoImplicit false

namespace Wasabi.Graphics.FillRect
open Wasabi.Rust Wasabi.Outcome Wasabi.Graphics.Pixels Wasabi.Graphics.Painting

/-- The four tests, each made only if the ones before it passed. -/
def outOfRange (b : Bitmap) (px py w h : ℤ) : Eval Bool :=
  if isInXRange b px = false then pure true
  else if isInYRange b py = false then pure true
  else do
    let right ← addI64 px w
    let right ← subI64 right 1
    if isInXRange b right = false then pure true
    else do
      let bottom ← addI64 py h
      let bottom ← subI64 bottom 1
      pure (!isInYRange b bottom)

def fillRow (color : UInt32) (px w y : ℤ) : Draw Unit := do
  let right ← observe (fun _ => addI64 px w)
  (rangeI64 px right).forM (fun x => uncheckedDrawPoint color x y)

def fillRect (color : UInt32) (px py w h : ℤ) : Draw Unit := do
  let outside ← observe (fun b => outOfRange b px py w h)
  if outside then throw "Out of Range"
  else do
    let bottom ← observe (fun _ => addI64 py h)
    (rangeI64 py bottom).forM (fillRow color px w)

def rect (px py w h : ℤ) : Set (ℤ × ℤ) :=
  {p | px ≤ p.1 ∧ p.1 < px+w ∧ py ≤ p.2 ∧ p.2 < py+h}

/-- The values that the tests compute, from left to right, are all `i64`. -/
structure CornersFit (px py w h : ℤ) : Prop where
  right : InI64 (px+w)
  last : InI64 (px+w-1)
  bottom : InI64 (py+h)
  lowest : InI64 (py+h-1)

/-- What the tests demand. -/
def CornersInRange (b : Bitmap) (px py w h : ℤ) : Prop :=
  InRange b px py ∧ InRange b (px+w-1) (py+h-1)

/-- The tests stop before a sum that is not an `i64`. -/
structure SumsFit (b : Bitmap) (px py w h : ℤ) : Prop where
  right : InRange b px py → i64Min < px+w ∧ px+w ≤ i64Max
  bottom : InRange b px py → isInXRange b (px+w-1) = true → i64Min < py+h ∧ py+h ≤ i64Max

theorem corners_sums (b : Bitmap) (px py w h : ℤ) (hf : CornersFit px py w h) :
    SumsFit b px py w h := by
  obtain ⟨⟨-,h1⟩,⟨h2,-⟩,⟨-,h3⟩,h4,-⟩ := hf
  exact ⟨fun _ => ⟨by omega,h1⟩,fun _ _ => ⟨by omega,h3⟩⟩

/-- The last coordinate of a span: a start and a length are added and one is taken off. -/
theorem last_ok {β : Type} (a n : ℤ) (k : ℤ → Eval β) (h : i64Min < a+n ∧ a+n ≤ i64Max) :
    (do let s ← addI64 a n; let d ← subI64 s 1; k d) = k (a+n-1) := by
  obtain ⟨h1,h2⟩ := h
  rw [addI64_ok _ _ ⟨h1.le,h2⟩, ok_bind, subI64_ok _ _ ⟨by omega,by omega⟩, ok_bind]

theorem last_returned {β : Type} (a n : ℤ) (k : ℤ → Eval β) (r : β)
    (hret : (do let s ← addI64 a n; let d ← subI64 s 1; k d) = .ok r) :
    (i64Min < a+n ∧ a+n ≤ i64Max) ∧ k (a+n-1) = .ok r := by
  obtain ⟨s,hs,hret⟩ := bind_ok _ _ _ hret
  obtain ⟨d,hd,hret⟩ := bind_ok _ _ _ hret
  obtain ⟨⟨-,h1⟩,rfl⟩ := addI64_returned _ _ _ hs
  obtain ⟨⟨h2,-⟩,rfl⟩ := subI64_returned _ _ _ hd
  exact ⟨⟨by omega,h1⟩,hret⟩

theorem outOfRange_iff (b : Bitmap) (px py w h : ℤ) (hf : SumsFit b px py w h) :
    ∃ outside, outOfRange b px py w h = .ok outside ∧
      (outside = false ↔ CornersInRange b px py w h) := by
  obtain ⟨hright,hbottom⟩ := hf
  rw [CornersInRange]
  rw [← inRange_iff] at hright hbottom ⊢
  rw [← inRange_iff, outOfRange]
  cases hx : isInXRange b px with
  | false => exact ⟨true,rfl,by simp⟩
  | true =>
    cases hy : isInYRange b py with
    | false => exact ⟨true,rfl,by simp⟩
    | true =>
      rw [hx, hy] at hright hbottom
      rw [last_ok _ _ _ (hright rfl)]
      cases hr : isInXRange b (px+w-1) with
      | false => exact ⟨true,rfl,by simp⟩
      | true =>
        rw [last_ok _ _ _ (hbottom rfl hr)]
        exact ⟨_,rfl,by simp⟩

/-- Tests that return have not met a sum that is not an `i64`. -/
theorem outOfRange_returned (b : Bitmap) (px py w h : ℤ) (outside : Bool)
    (hret : outOfRange b px py w h = .ok outside) : SumsFit b px py w h := by
  constructor
  · intro hin
    rw [← inRange_iff, Bool.and_eq_true] at hin
    rw [outOfRange, hin.1, hin.2] at hret
    exact (last_returned _ _ _ _ hret).1
  · intro hin hr
    rw [← inRange_iff, Bool.and_eq_true] at hin
    rw [outOfRange, hin.1, hin.2] at hret
    have hret := (last_returned _ _ _ _ hret).2
    rw [hr] at hret
    exact (last_returned _ _ _ _ hret).1

/-- Between two places in range every place is in range. -/
theorem rect_inRange (b : Bitmap) (px py w h : ℤ) (hc : CornersInRange b px py w h) (p : ℤ × ℤ)
    (hp : p ∈ rect px py w h) : InRange b p.1 p.2 := by
  obtain ⟨⟨h1,-,h2,-⟩,-,h3,-,h4⟩ := hc
  obtain ⟨h5,h6,h7,h8⟩ := hp
  exact ⟨by omega,by omega,by omega,by omega⟩

/-- The corners of a non-empty rectangle are places of it. -/
theorem corners_of_rect (b : Bitmap) (px py w h : ℤ) (hw : 1 ≤ w) (hh : 1 ≤ h)
    (hall : ∀ p ∈ rect px py w h, InRange b p.1 p.2) : CornersInRange b px py w h := by
  have hfirst : (px,py) ∈ rect px py w h :=
    ⟨le_rfl,by simp only; omega,le_rfl,by simp only; omega⟩
  have hlast : (px+w-1,py+h-1) ∈ rect px py w h :=
    ⟨by simp only; omega,by simp only; omega,by simp only; omega,by simp only; omega⟩
  exact ⟨hall _ hfirst,hall _ hlast⟩

theorem fillRow_paints (color : UInt32) (px w y : ℤ) (hw : InI64 (px+w)) (b : Bitmap)
    (hb : BufferOk b) (h : ∀ x, px ≤ x → x < px+w → InRange b x y) :
    Paints color {p | px ≤ p.1 ∧ p.1 < px+w ∧ p.2 = y} (fillRow color px w y) b := by
  rw [Paints, fillRow, run_bind _ _ _ _ _ (observe_ok _ b _ (addI64_ok _ _ hw))]
  apply paints_congr color _ _ _ b
    (range_paints color _ (fun x => {(x,y)}) px (px+w) b hb ?_)
  · intro p
    constructor
    · rintro ⟨x,⟨h1,h2⟩,rfl⟩
      exact ⟨h1,h2,rfl⟩
    · rintro ⟨h1,h2,h3⟩
      exact ⟨p.1,⟨h1,h2⟩,Prod.ext rfl h3⟩
  · intro x hx0 hx1 b1 hb1 hr1
    exact unchecked_paints color b1 hb1 x y ((hr1 x y).mpr (h x hx0 hx1))

/-- A rectangle whose corners pass the tests is painted. -/
theorem fillRect_paints (color : UInt32) (px py w h : ℤ) (hf : CornersFit px py w h) (b : Bitmap)
    (hb : BufferOk b) (hc : CornersInRange b px py w h) :
    Paints color (rect px py w h) (fillRect color px py w h) b := by
  obtain ⟨outside,hout,hiff⟩ := outOfRange_iff b px py w h (corners_sums b px py w h hf)
  obtain rfl := hiff.mpr hc
  rw [Paints, fillRect, run_bind _ _ _ _ _ (observe_ok _ b _ hout), if_neg Bool.false_ne_true,
    run_bind _ _ _ _ _ (observe_ok _ b _ (addI64_ok _ _ hf.bottom))]
  apply paints_congr color _ _ _ b (range_paints color (fillRow color px w)
    (fun y => {p | px ≤ p.1 ∧ p.1 < px+w ∧ p.2 = y}) py (py+h) b hb ?_)
  · intro p
    constructor
    · rintro ⟨y,⟨h3,h4⟩,h1,h2,rfl⟩
      exact ⟨h1,h2,h3,h4⟩
    · rintro ⟨h1,h2,h3,h4⟩
      exact ⟨p.2,⟨h3,h4⟩,h1,h2,rfl⟩
  · intro y hy0 hy1 b1 hb1 hr1
    apply fillRow_paints color px w y hf.right b1 hb1
    intro x hx0 hx1
    exact (hr1 x y).mpr (rect_inRange b px py w h hc (x,y) ⟨hx0,hx1,hy0,hy1⟩)

theorem fillRect_rejects (color : UInt32) (px py w h : ℤ) (b : Bitmap) (hf : SumsFit b px py w h)
    (hc : ¬ CornersInRange b px py w h) :
    fillRect color px py w h b = .ok (.error "Out of Range",b) := by
  obtain ⟨outside,hout,hiff⟩ := outOfRange_iff b px py w h hf
  have htrue : outside = true := by
    cases outside with
    | false => exact absurd (hiff.mp rfl) hc
    | true => rfl
  rw [fillRect, run_bind _ _ _ _ _ (observe_ok _ b _ hout), if_pos htrue]
  rfl

theorem points_paint (color : UInt32) (b : Bitmap) (hb : BufferOk b) (l : List (ℤ × ℤ))
    (h : ∀ p ∈ l, InRange b p.1 p.2) :
    Paints color {p | p ∈ l} (l.forM (fun p => drawPoint color p.1 p.2)) b := by
  apply paints_congr color _ _ _ b (forM_paints color _ (fun p : ℤ × ℤ => {p}) l b hb ?_)
  · simp
  · intro p hpl b1 hb1 hr1
    exact drawPoint_paints color b1 hb1 p.1 p.2 ((hr1 p.1 p.2).mpr (h p hpl))

/-- Filling writes what `draw_point` on the same coordinates writes, in any
order, and touches no other byte of a line. A rejected rectangle leaves the
bitmap as it was; for a non-empty one this happens exactly if it leaves the
range. -/
theorem fill_rect_refines (b : Bitmap) (hb : BufferOk b) (color : UInt32) (px py w h : ℤ)
    (hf : CornersFit px py w h) :
    ∃ result b', fillRect color px py w h b = .ok (result,b') ∧
      (result = .ok () →
        (∀ l : List (ℤ × ℤ), (∀ p, p ∈ l ↔ p ∈ rect px py w h) →
          l.forM (fun p => drawPoint color p.1 p.2) b = .ok (.ok (),b')) ∧
        (∀ p ∈ rect px py w h, pixelBytes b p ⊆ Set.Ico 0 b.size) ∧
        (∀ p ∈ rect px py w h, ∀ q, InLine b q → p ≠ q →
          Disjoint (pixelBytes b p) (pixelBytes b q)) ∧
        (∀ q, InLine b q → q ∉ rect px py w h → ∀ i ∈ pixelBytes b q, b'.buf i = b.buf i) ∧
        ∀ i, (∀ p ∈ rect px py w h, i ∉ pixelBytes b p) → b'.buf i = b.buf i) ∧
      (∀ message, result = .error message → b' = b) ∧
      (1 ≤ w → 1 ≤ h → ((∃ message, result = .error message) ↔
        ∃ p ∈ rect px py w h, ¬ InRange b p.1 p.2)) := by
  by_cases hc : CornersInRange b px py w h
  · have hin := rect_inRange b px py w h hc
    have hline := fun p hp => inRange_inLine b p (hin p hp)
    obtain ⟨b',hrun,hp⟩ := fillRect_paints color px py w h hf b hb hc
    refine ⟨.ok (),b',hrun,fun _ => ⟨?_,?_,?_,?_,hp.outside⟩,?_,?_⟩
    · intro l hl
      obtain ⟨b1,hrun1,hp1⟩ := points_paint color b hb l (fun p hpl => hin p ((hl p).mp hpl))
      have hset : {p | p ∈ l} = rect px py w h := Set.ext hl
      rw [hset] at hp1
      rw [hrun1, painted_unique color _ b b1 b' hp1 hp]
    · intro p hpr i hi
      exact ⟨Nat.zero_le i,hi.2.trans_le (pixelBytes_inside b hb p.1 p.2 (hin p hpr))⟩
    · exact fun p hpr q hq hne => pixelBytes_disjoint b p q (hline p hpr) hq hne
    · exact fun q hq hqr i hi => painted_others color _ b b' hp hline q hq hqr i hi
    · intro message he
      cases he
    · intro _ _
      constructor
      · rintro ⟨message,he⟩
        cases he
      · rintro ⟨p,hpr,hn⟩
        exact absurd (hin p hpr) hn
  · have hrejects := fillRect_rejects color px py w h b (corners_sums b px py w h hf) hc
    refine ⟨_,b,hrejects,?_,fun _ _ => rfl,?_⟩
    · intro he
      cases he
    · intro hw hh
      refine ⟨fun _ => ?_,fun _ => ⟨_,rfl⟩⟩
      by_contra hn
      apply hc
      apply corners_of_rect b px py w h hw hh
      intro p hpr
      by_contra hout
      exact hn ⟨p,hpr,hout⟩

/-- Two lines of three visible pixels and one of padding. -/
def padded : Bitmap := ⟨4,4,3,2,32,fun _ => 0⟩

theorem fill_rect_refines_padded :
    ∃ result b', fillRect 0xff0000 1 0 2 2 padded = .ok (result,b') ∧
      (result = .ok () →
        (∀ l : List (ℤ × ℤ), (∀ p, p ∈ l ↔ p ∈ rect 1 0 2 2) →
          l.forM (fun p => drawPoint 0xff0000 p.1 p.2) padded = .ok (.ok (),b')) ∧
        (∀ p ∈ rect 1 0 2 2, pixelBytes padded p ⊆ Set.Ico 0 32) ∧
        (∀ p ∈ rect 1 0 2 2, ∀ q, InLine padded q → p ≠ q →
          Disjoint (pixelBytes padded p) (pixelBytes padded q)) ∧
        (∀ q, InLine padded q → q ∉ rect 1 0 2 2 → ∀ i ∈ pixelBytes padded q, b'.buf i = 0) ∧
        ∀ i, (∀ p ∈ rect 1 0 2 2, i ∉ pixelBytes padded p) → b'.buf i = 0) ∧
      (∀ message, result = .error message → b' = padded) ∧
      ((1 : ℤ) ≤ 2 → (1 : ℤ) ≤ 2 → ((∃ message, result = .error message) ↔
        ∃ p ∈ rect 1 0 2 2, ¬ InRange padded p.1 p.2)) :=
  fill_rect_refines padded ⟨rfl,rfl,by decide⟩ 0xff0000 1 0 2 2
    ⟨by decide,by decide,by decide,by decide⟩

end Wasabi.Graphics.FillRect
