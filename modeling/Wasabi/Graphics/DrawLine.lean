import Wasabi.Graphics.Painting
import Wasabi.Support.DigitalLine

/-!
# Drawing a line

The loop runs along the longer axis and asks `calc_slope_point` for the other
coordinate. Two truncating divisions are one rounding, its value never leaves
the segment, and the products are bounded by the size of the buffer. So no
turn fails and the turns paint the digital segment without its end.
-/

set_option autoImplicit false

namespace Wasabi.Graphics.DrawLine
open Wasabi.Rust Wasabi.Outcome Wasabi.DigitalLine
open Wasabi.Graphics.Pixels Wasabi.Graphics.Painting

def calcSlopePoint (da db ia : ℤ) : Eval (Option ℤ) :=
  if da < db then pure none
  else if da = 0 then pure (some 0)
  else if 0 ≤ ia ∧ ia ≤ da then do
    let twice ← mulI64 2 db
    let product ← mulI64 twice ia
    let sum ← addI64 product da
    let quotient ← divI64 sum da
    let half ← divI64 quotient 2
    pure (some half)
  else pure none

/-- `(a1 - a0).abs()`. -/
def distance (a0 a1 : ℤ) : Eval ℤ := do
  let difference ← subI64 a1 a0
  absI64 difference

/-- `(a1 - a0).signum()`. -/
def direction (a0 a1 : ℤ) : Eval ℤ := do
  let difference ← subI64 a1 a0
  pure difference.sign

/-- `draw_point(buf, color, x0 + rx * sx, y0 + ry * sy)?`. -/
def drawStep (color : UInt32) (x0 y0 sx sy rx ry : ℤ) : Draw Unit := do
  let ox ← observe (fun _ => mulI64 rx sx)
  let x ← observe (fun _ => addI64 x0 ox)
  let oy ← observe (fun _ => mulI64 ry sy)
  let y ← observe (fun _ => addI64 y0 oy)
  drawPoint color x y

/-- A turn of the loop along the x axis. -/
def drawAlongX (color : UInt32) (x0 y0 sx sy dx dy rx : ℤ) : Draw Unit := do
  let ry ← observe (fun _ => calcSlopePoint dx dy rx)
  match ry with
  | some ry => drawStep color x0 y0 sx sy rx ry
  | none => pure ()

/-- A turn of the loop along the y axis. -/
def drawAlongY (color : UInt32) (x0 y0 sx sy dx dy ry : ℤ) : Draw Unit := do
  let rx ← observe (fun _ => calcSlopePoint dy dx ry)
  match rx with
  | some rx => drawStep color x0 y0 sx sy rx ry
  | none => pure ()

/-- The four tests of the end points. -/
def endOutside (b : Bitmap) (x0 y0 x1 y1 : ℤ) : Bool :=
  !isInXRange b x0 || !isInXRange b x1 || !isInYRange b y0 || !isInYRange b y1

def drawLine (color : UInt32) (x0 y0 x1 y1 : ℤ) : Draw Unit := do
  let outside ← observe (fun b => .ok (endOutside b x0 y0 x1 y1))
  if outside then throw "Out of Range"
  else do
    let dx ← observe (fun _ => distance x0 x1)
    let sx ← observe (fun _ => direction x0 x1)
    let dy ← observe (fun _ => distance y0 y1)
    let sy ← observe (fun _ => direction y0 y1)
    if dx ≥ dy then (rangeI64 0 dx).forM (drawAlongX color x0 y0 sx sy dx dy)
    else (rangeI64 0 dy).forM (drawAlongY color x0 y0 sx sy dx dy)

theorem calcSlopePoint_rounded (da db ia : ℤ) (hb : 0 ≤ db) (hle : db ≤ da) (h0 : 0 ≤ ia)
    (hlt : ia < da) (hfit : 2*db*da+da ≤ i64Max) :
    calcSlopePoint da db ia = .ok (some (rounded db da ia)) := by
  have hmin : i64Min ≤ 0 := by decide
  have hpos : 0 < da := by omega
  have hproduct : 0 ≤ 2*db*ia := by positivity
  have htwice : 2*db ≤ 2*db*da := le_mul_of_one_le_right (by omega) hpos
  have hgrow : 2*db*ia ≤ 2*db*da := mul_le_mul_of_nonneg_left hlt.le (by omega)
  have hsum : (2*db*ia+da).tdiv da = (2*db*ia+da)/da := Int.tdiv_eq_ediv_of_nonneg (by omega)
  have hquot : 0 ≤ (2*db*ia+da)/da := Int.ediv_nonneg (by omega) hpos.le
  have hquot' : (2*db*ia+da)/da ≤ 2*db*ia+da := Int.ediv_le_self _ (by omega)
  have hhalf : ((2*db*ia+da)/da).tdiv 2 = rounded db da ia := by
    rw [Int.tdiv_eq_ediv_of_nonneg hquot, rounded_div db da ia hpos]
  have hr0 := rounded_nonneg db da ia hpos hb h0
  have hr1 := rounded_le db da ia hpos hb hlt.le
  rw [calcSlopePoint, if_neg (by omega), if_neg (by omega), if_pos ⟨h0,hlt.le⟩,
    mulI64_ok _ _ ⟨by omega,by omega⟩, ok_bind, mulI64_ok _ _ ⟨by omega,by omega⟩, ok_bind,
    addI64_ok _ _ ⟨by omega,by omega⟩, ok_bind, divI64_ok _ _ (by omega) ⟨by omega,by omega⟩,
    ok_bind, hsum, divI64_ok _ _ (by omega) ⟨by omega,by omega⟩, ok_bind, hhalf, pure_eq]

section Axis
variable (a c : ℤ) (ha : 0 ≤ a) (hc : 0 ≤ c) (ha' : a ≤ i64Max) (hc' : c ≤ i64Max)
include ha hc ha' hc'

theorem subI64_coordinates : subI64 c a = .ok (c-a) := by
  have hmin : i64Min = -i64Max-1 := rfl
  exact subI64_ok c a ⟨by omega,by omega⟩

theorem distance_ok : distance a c = .ok |c-a| := by
  have hmin : i64Min = -i64Max-1 := rfl
  have h := abs_sub_lt_of_nonneg_of_lt hc (Int.lt_add_one_of_le hc') ha (Int.lt_add_one_of_le ha')
  have h0 := abs_nonneg (c-a)
  rw [distance, subI64_coordinates a c ha hc ha' hc', ok_bind, absI64_ok _ ⟨by omega,by omega⟩]

theorem direction_ok : direction a c = .ok (c-a).sign := by
  rw [direction, subI64_coordinates a c ha hc ha' hc']
  rfl

end Axis

theorem endOutside_iff (b : Bitmap) (p q : ℤ × ℤ) :
    endOutside b p.1 p.2 q.1 q.2 = false ↔ InRange b p.1 p.2 ∧ InRange b q.1 q.2 := by
  rw [← inRange_iff, ← inRange_iff, endOutside]
  simp only [Bool.or_eq_false_iff, Bool.not_eq_false', Bool.and_eq_true]
  tauto

/-- Turns that paint one step each paint the steps of the segment. -/
theorem turns_paint (b : Bitmap) (hb : BufferOk b) (p q : ℤ × ℤ) (color : UInt32)
    (f : ℤ → Draw Unit) (D : ℤ) (hD : D = steps p q)
    (hf : ∀ k, 0 ≤ k → k < D → ∀ b', BufferOk b' → (∀ x y, InRange b' x y ↔ InRange b x y) →
      Paints color {place p q k} (f k) b') :
    Paints color (trail p q) ((rangeI64 0 D).forM f) b := by
  apply paints_congr color _ _ _ b
    (range_paints color f (fun k => {place p q k}) 0 D b hb hf)
  intro r
  rw [trail, ← hD]
  constructor
  · rintro ⟨k,hk,rfl⟩
    exact ⟨k,hk,rfl⟩
  · rintro ⟨k,hk,rfl⟩
    exact ⟨k,hk,rfl⟩

section Segment
variable (b : Bitmap) (p q : ℤ × ℤ) (hp : InRange b p.1 p.2) (hq : InRange b q.1 q.2)
include hp hq

/-- The range is convex. -/
theorem box_inRange (x y : ℤ) (hx : min p.1 q.1 ≤ x ∧ x ≤ max p.1 q.1)
    (hy : min p.2 q.2 ≤ y ∧ y ≤ max p.2 q.2) : InRange b x y := by
  obtain ⟨h1,h2,h3,h4⟩ := hp
  obtain ⟨h5,h6,h7,h8⟩ := hq
  exact ⟨by omega,by omega,by omega,by omega⟩

theorem trail_inLine : ∀ r ∈ trail p q, InLine b r := by
  rintro r ⟨k,⟨h0,hk⟩,rfl⟩
  obtain ⟨hx,hy⟩ := place_between p q k h0 hk
  exact inRange_inLine b _ (box_inRange b p q hp hq _ _ hx hy)

variable (hb : BufferOk b)
include hb

theorem spans_fit : 2*|q.2-p.2| * |q.1-p.1|+|q.1-p.1| ≤ i64Max ∧
    2*|q.1-p.1| * |q.2-p.2|+|q.2-p.2| ≤ i64Max := by
  have hbound := hb.bound
  obtain ⟨h1,h2,h3,h4⟩ := hp
  obtain ⟨h5,h6,h7,h8⟩ := hq
  have hx0 := abs_nonneg (q.1-p.1)
  have hy0 := abs_nonneg (q.2-p.2)
  have hx : |q.1-p.1|+1 ≤ b.pixelsPerLine := by
    have h := abs_sub_lt_of_nonneg_of_lt h5 (h6.trans_le (min_le_right _ _)) h1
      (h2.trans_le (min_le_right _ _))
    omega
  have hy : |q.2-p.2|+1 ≤ b.height := by
    have h := abs_sub_lt_of_nonneg_of_lt h7 h8 h3 h4
    omega
  have hprod : (|q.1-p.1|+1)*(|q.2-p.2|+1) ≤ b.pixelsPerLine*b.height :=
    mul_le_mul hx hy (by omega) (by omega)
  constructor
  · nlinarith
  · nlinarith

theorem drawStep_paints (color : UInt32) (t u : ℤ) (ht0 : 0 ≤ t) (ht : t ≤ |q.1-p.1|)
    (hu0 : 0 ≤ u) (hu : u ≤ |q.2-p.2|) :
    Paints color {(towards p.1 q.1 t,towards p.2 q.2 u)}
      (drawStep color p.1 p.2 (q.1-p.1).sign (q.2-p.2).sign t u) b := by
  have hmin : i64Min = -2^63 := rfl
  have hmax : i64Max = 2^63-1 := rfl
  have hx := towards_between p.1 q.1 t ht0 ht
  have hy := towards_between p.2 q.2 u hu0 hu
  have hin := box_inRange b p q hp hq _ _ hx hy
  obtain ⟨b',hrun,hpaint⟩ := drawPoint_paints color b hb _ _ hin
  obtain ⟨hpx,hpy⟩ := inRange_small b hb _ _ hp
  obtain ⟨hix,hiy⟩ := inRange_small b hb _ _ hin
  obtain ⟨h1,-,h3,-⟩ := hp
  obtain ⟨h5,-,h7,-⟩ := hin
  unfold towards at *
  refine ⟨b',?_,hpaint⟩
  rw [drawStep,
    run_bind _ _ _ _ _ (observe_ok _ b _ (mulI64_ok _ _ ⟨by omega,by omega⟩)),
    run_bind _ _ _ _ _ (observe_ok _ b _ (addI64_ok _ _ ⟨by omega,by omega⟩)),
    run_bind _ _ _ _ _ (observe_ok _ b _ (mulI64_ok _ _ ⟨by omega,by omega⟩)),
    run_bind _ _ _ _ _ (observe_ok _ b _ (addI64_ok _ _ ⟨by omega,by omega⟩))]
  exact hrun

theorem drawAlongX_paints (color : UInt32) (hmajor : |q.2-p.2| ≤ |q.1-p.1|) (k : ℤ) (h0 : 0 ≤ k)
    (hk : k < |q.1-p.1|) :
    Paints color {place p q k} (drawAlongX color p.1 p.2 (q.1-p.1).sign (q.2-p.2).sign
      |q.1-p.1| |q.2-p.2| k) b := by
  have hslope := calcSlopePoint_rounded _ _ k (abs_nonneg _) hmajor h0 hk
    (spans_fit b p q hp hq hb).1
  have hr0 := rounded_nonneg |q.2-p.2| |q.1-p.1| k (by omega) (abs_nonneg _) h0
  have hr1 := rounded_le |q.2-p.2| |q.1-p.1| k (by omega) (abs_nonneg _) hk.le
  obtain ⟨b',hrun,hpaint⟩ := drawStep_paints b p q hp hq hb color k _ h0 hk.le hr0 hr1
  refine ⟨b',?_,?_⟩
  · rw [drawAlongX, run_bind _ _ _ _ _ (observe_ok _ b _ hslope)]
    exact hrun
  · rwa [place, if_pos hmajor]

theorem drawAlongY_paints (color : UInt32) (hmajor : ¬ |q.2-p.2| ≤ |q.1-p.1|) (k : ℤ)
    (h0 : 0 ≤ k) (hk : k < |q.2-p.2|) :
    Paints color {place p q k} (drawAlongY color p.1 p.2 (q.1-p.1).sign (q.2-p.2).sign
      |q.1-p.1| |q.2-p.2| k) b := by
  have hle : |q.1-p.1| ≤ |q.2-p.2| := le_of_not_ge hmajor
  have hslope := calcSlopePoint_rounded _ _ k (abs_nonneg _) hle h0 hk
    (spans_fit b p q hp hq hb).2
  have hr0 := rounded_nonneg |q.1-p.1| |q.2-p.2| k (by omega) (abs_nonneg _) h0
  have hr1 := rounded_le |q.1-p.1| |q.2-p.2| k (by omega) (abs_nonneg _) hk.le
  obtain ⟨b',hrun,hpaint⟩ := drawStep_paints b p q hp hq hb color _ k hr0 hr1 h0 hk.le
  refine ⟨b',?_,?_⟩
  · rw [drawAlongY, run_bind _ _ _ _ _ (observe_ok _ b _ hslope)]
    exact hrun
  · rwa [place, if_neg hmajor]

/-- Behind the tests only the choice of the axis is left. -/
theorem drawLine_inside (color : UInt32) : drawLine color p.1 p.2 q.1 q.2 b =
    (if |q.1-p.1| ≥ |q.2-p.2| then (rangeI64 0 |q.1-p.1|).forM (drawAlongX color p.1 p.2
        (q.1-p.1).sign (q.2-p.2).sign |q.1-p.1| |q.2-p.2|)
      else (rangeI64 0 |q.2-p.2|).forM (drawAlongY color p.1 p.2
        (q.1-p.1).sign (q.2-p.2).sign |q.1-p.1| |q.2-p.2|)) b := by
  obtain ⟨hpx,hpy⟩ := inRange_small b hb _ _ hp
  obtain ⟨hqx,hqy⟩ := inRange_small b hb _ _ hq
  have hpx0 := hp.1
  have hpy0 := hp.2.2.1
  have hqx0 := hq.1
  have hqy0 := hq.2.2.1
  have hdx := distance_ok p.1 q.1 hpx0 hqx0 (by omega) (by omega)
  have hsx := direction_ok p.1 q.1 hpx0 hqx0 (by omega) (by omega)
  have hdy := distance_ok p.2 q.2 hpy0 hqy0 (by omega) (by omega)
  have hsy := direction_ok p.2 q.2 hpy0 hqy0 (by omega) (by omega)
  have hout : (.ok (endOutside b p.1 p.2 q.1 q.2) : Eval Bool) = .ok false :=
    congrArg _ ((endOutside_iff b p q).mpr ⟨hp,hq⟩)
  rw [drawLine, run_bind _ _ _ _ _ (observe_ok _ b _ hout),
    if_neg Bool.false_ne_true, run_bind _ _ _ _ _ (observe_ok _ b _ hdx),
    run_bind _ _ _ _ _ (observe_ok _ b _ hsx), run_bind _ _ _ _ _ (observe_ok _ b _ hdy),
    run_bind _ _ _ _ _ (observe_ok _ b _ hsy)]

/-- A line paints the digital segment from its start up to its end. -/
theorem drawLine_paints (color : UInt32) :
    Paints color (trail p q) (drawLine color p.1 p.2 q.1 q.2) b := by
  unfold Paints
  rw [drawLine_inside b p q hp hq hb color]
  split_ifs with hmajor
  · apply turns_paint b hb p q color _ _ (max_eq_left hmajor).symm
    intro k hk0 hk b' hb' hr
    exact drawAlongX_paints b' p q ((hr _ _).mpr hp) ((hr _ _).mpr hq) hb' color hmajor k hk0 hk
  · apply turns_paint b hb p q color _ _ (max_eq_right (le_of_not_ge hmajor)).symm
    intro k hk0 hk b' hb' hr
    exact drawAlongY_paints b' p q ((hr _ _).mpr hp) ((hr _ _).mpr hq) hb' color hmajor k hk0 hk

end Segment

theorem drawLine_rejects (b : Bitmap) (color : UInt32) (p q : ℤ × ℤ)
    (h : ¬ (InRange b p.1 p.2 ∧ InRange b q.1 q.2)) :
    drawLine color p.1 p.2 q.1 q.2 b = .ok (.error "Out of Range",b) := by
  have hout : (.ok (endOutside b p.1 p.2 q.1 q.2) : Eval Bool) = .ok true :=
    congrArg _ (Bool.of_not_eq_false (fun hf => h ((endOutside_iff b p q).mp hf)))
  rw [drawLine, run_bind _ _ _ _ _ (observe_ok _ b _ hout), if_pos rfl]
  rfl

/-- The whole behaviour of `draw_line`. Step `k` of the longer axis paints
`place p q k`, which rounds the ideal line on the other axis. -/
theorem draw_line_rasterises (b : Bitmap) (hb : BufferOk b) (color : UInt32) (p q : ℤ × ℤ) :
    (¬ (InRange b p.1 p.2 ∧ InRange b q.1 q.2) →
      drawLine color p.1 p.2 q.1 q.2 b = .ok (.error "Out of Range",b)) ∧
    (InRange b p.1 p.2 → InRange b q.1 q.2 →
      ∃ b', drawLine color p.1 p.2 q.1 q.2 b = .ok (.ok (),b') ∧
        Painted color (place p q '' Set.Ico 0 (steps p q)) b b' ∧
        (place p q '' Set.Ico 0 (steps p q)).ncard = (steps p q).toNat ∧
        (∀ r, InLine b r → r ∉ place p q '' Set.Ico 0 (steps p q) →
          ∀ i ∈ pixelBytes b r, b'.buf i = b.buf i) ∧
        ∀ k, 0 ≤ k → k < steps p q →
          |((place p q k).1 : ℚ)-(p.1+(q.1-p.1)*k/steps p q)| ≤ 1/2 ∧
          |((place p q k).2 : ℚ)-(p.2+(q.2-p.2)*k/steps p q)| ≤ 1/2 ∧
          (min p.1 q.1 ≤ (place p q k).1 ∧ (place p q k).1 ≤ max p.1 q.1) ∧
          (min p.2 q.2 ≤ (place p q k).2 ∧ (place p q k).2 ≤ max p.2 q.2) ∧
          (k+1 < steps p q → |(place p q (k+1)).1-(place p q k).1| ≤ 1 ∧
            |(place p q (k+1)).2-(place p q k).2| ≤ 1)) := by
  refine ⟨drawLine_rejects b color p q,?_⟩
  intro hp hq
  obtain ⟨b',hrun,hpaint⟩ := drawLine_paints b p q hp hq hb color
  have hbox : ∀ k, 0 ≤ k → k < steps p q → _ := fun k h0 hk => place_between p q k h0 hk
  refine ⟨b',hrun,hpaint,trail_ncard p q,?_,?_⟩
  · exact painted_others color _ b b' hpaint (trail_inLine b p q hp hq)
  · intro k h0 hk
    have hD : 0 < steps p q := by omega
    obtain ⟨hx,hy⟩ := place_near p q k hD
    exact ⟨hx,hy,(hbox k h0 hk).1,(hbox k h0 hk).2,fun _ => place_step p q k hD⟩

/-- Two lines of three black pixels. -/
def black : Bitmap := ⟨4,3,3,2,24,fun _ => 0⟩

theorem draw_line_rasterises_black :
    drawLine 0xffffff 0 0 3 1 black = .ok (.error "Out of Range",black) ∧
      ∃ b', drawLine 0xffffff 0 0 2 1 black = .ok (.ok (),b') ∧
        Painted 0xffffff (place (0,0) (2,1) '' Set.Ico 0 (steps (0,0) (2,1))) black b' ∧
        (place (0,0) (2,1) '' Set.Ico 0 (steps (0,0) (2,1))).ncard = 2 := by
  have hb : BufferOk black := ⟨rfl,rfl,by decide⟩
  refine ⟨(draw_line_rasterises black hb 0xffffff (0,0) (3,1)).1 (by decide),?_⟩
  obtain ⟨b',hrun,hpaint,hcard,-⟩ :=
    (draw_line_rasterises black hb 0xffffff (0,0) (2,1)).2 (by decide) (by decide)
  exact ⟨b',hrun,hpaint,hcard⟩

end Wasabi.Graphics.DrawLine
