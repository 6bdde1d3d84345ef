import Wasabi.Graphics.Pictures

/-!
# The test pattern

Four pairs of rectangles, a figure of lines over them and two lines of text
below, at the right edge of the screen. The rectangles are demanded and the
rest is drawn as far as it is visible.
-/

set_option autoImplicit false

namespace Wasabi.Graphics.TestPattern
open Wasabi.Rust Wasabi.Outcome Wasabi.DigitalLine Wasabi.TextLines
open Wasabi.Graphics.Pixels Wasabi.Graphics.Painting Wasabi.Graphics.FillRect
open Wasabi.Graphics.DrawLine Wasabi.Graphics.Font Wasabi.Graphics.Text
open Wasabi.Graphics.Pictures

/-- `Result::expect`. -/
def expect (x : Draw Unit) (message : String) : Draw Unit := fun b => do
  match ← x b with
  | (.ok a,b) => pure (.ok a,b)
  | (.error e,_) => .error (.panic (expectMessage message e))

/-- A turn of the loop in `draw_str_fg`. -/
def drawStrChar (font : FontTable) (x y : ℤ) (color : UInt32) (ci : Char × ℕ) : Draw Unit := do
  let shift ← observe (fun _ => mulI64 ci.2 8)
  let px ← observe (fun _ => addI64 x shift)
  drawFontFg font px y color ci.1

def drawStrFg (font : FontTable) (x y : ℤ) (color : UInt32) (s : List Char) : Draw Unit :=
  s.zipIdx.forM (drawStrChar font x y color)

def colors : List UInt32 := [0x000000,0xff0000,0x00ff00,0x0000ff]

/-- A turn of the loop over the colours. -/
def drawPair (left : ℤ) (ci : UInt32 × ℕ) : Draw Unit := do
  let y ← observe (fun _ => mulI64 ci.2 64)
  expect (fillRect ci.1 left y 64 64) "fill_rect failed"
  let right ← observe (fun _ => addI64 left 64)
  expect (fillRect (~~~ci.1) right y 64 64) "fill_rect failed"

def points : List (ℤ × ℤ) := [(0,0),(0,128),(128,0),(128,128)]

/-- A turn of the inner loop over the points. -/
def drawBetween (left : ℤ) (p q : ℤ × ℤ) : Draw Unit := do
  let x0 ← observe (fun _ => addI64 left p.1)
  let x1 ← observe (fun _ => addI64 left q.1)
  Text.discard (drawLine 0xffffff x0 p.2 x1 q.2)

def digits : List Char := ['0','1','2','3','4','5','6','7','8','9']

def letters : List Char := ['A','B','C','D','E','F']

/-- `buf.width() - w - 1`. -/
def patternLeft (width : ℤ) : Eval ℤ := do
  let rest ← subI64 width 128
  subI64 rest 1

def drawTestPattern (font : FontTable) : Draw Unit := do
  let left ← observe (fun b => patternLeft b.width)
  colors.zipIdx.forM (drawPair left)
  points.forM (fun p => points.forM (drawBetween left p))
  let y ← observe (fun _ => mulI64 64 colors.length)
  drawStrFg font left y 0x00ff00 digits
  let y ← observe (fun _ => mulI64 64 colors.length)
  let y ← observe (fun _ => addI64 y 16)
  drawStrFg font left y 0x00ff00 letters

/-- The stars of a text of one line that begins at `(x,y)`. -/
def textStars (font : FontTable) (s : List Char) (x y : ℤ) : Set (ℤ × ℤ) :=
  {p | ∃ (i : ℕ) (c : Char), s[i]? = some c ∧ p ∈ stars font c (x+8*i) y}

theorem drawStrFg_paints (font : FontTable) (x y : ℤ) (color : UInt32) (s : List Char)
    (hx : InI64 x ∧ InI64 (x+8*s.length)) (hs : 8*(s.length : ℤ) ≤ i64Max)
    (hy : InI64 y ∧ InI64 (y+15)) (b : Bitmap) (hb : BufferOk b) :
    Paints color (textStars font s x y ∩ visible b) (drawStrFg font x y color s) b := by
  obtain ⟨⟨h1,h2⟩,h3,h4⟩ := hx
  have hmin : i64Min = -i64Max-1 := rfl
  have hturns := forM_paints color (drawStrChar font x y color)
    (fun ci => stars font ci.1 (x+8*(ci.2 : ℕ)) y ∩ visible b)
    s.zipIdx b hb (by
      rintro ⟨c,i⟩ hci b1 hb1 hr1
      have hlt : i < s.length := by
        have hmem := List.mem_zipIdx_iff_getElem?.mp hci
        exact (List.getElem?_eq_some_iff.mp hmem).1
      have hshift : mulI64 i 8 = .ok (8*(i : ℤ)) := by
        rw [mulI64_ok _ _ ⟨by omega,by omega⟩, mul_comm]
      have hpx : addI64 x (8*(i : ℤ)) = .ok (x+8*i) := addI64_ok _ _ ⟨by omega,by omega⟩
      rw [← visible_eq b b1 hr1]
      obtain ⟨b2,hrun,hp⟩ := drawFontFg_paints color (x+8*i) y
        ⟨⟨by omega,by omega⟩,by omega,by omega⟩ hy font c b1 hb1
      refine ⟨b2,?_,hp⟩
      rw [drawStrChar, run_bind _ _ _ _ _ (observe_ok _ b1 _ hshift),
        run_bind _ _ _ _ _ (observe_ok _ b1 _ hpx)]
      exact hrun)
  apply paints_congr color _ _ _ b hturns
  intro p
  constructor
  · rintro ⟨⟨c,i⟩,hci,hstar,hvis⟩
    exact ⟨⟨i,c,List.mem_zipIdx_iff_getElem?.mp hci,hstar⟩,hvis⟩
  · rintro ⟨⟨i,c,hc,hstar⟩,hvis⟩
    exact ⟨(c,i),List.mem_zipIdx_iff_getElem?.mpr hc,hstar,hvis⟩

/-- Whether a text that begins at the origin has a star at a place. -/
def starAt (font : FontTable) (s : List Char) (u v : ℤ) : Bool :=
  match s[(u/8).toNat]? with
  | some c => 0 ≤ u && 0 ≤ v && v < 16 && c.toNat ≤ 0xFF &&
      font (UInt8.ofNat c.toNat) ⟨v.toNat%16,Nat.mod_lt _ (by decide)⟩
        ⟨u.toNat%8,Nat.mod_lt _ (by decide)⟩ = '*'
  | none => false

theorem starAt_iff (font : FontTable) (s : List Char) (x y : ℤ) (p : ℤ × ℤ) :
    starAt font s (p.1-x) (p.2-y) = true ↔ p ∈ textStars font s x y := by
  constructor
  · intro h
    unfold starAt at h
    split at h
    · rename_i c hc
      simp only [Bool.and_eq_true, decide_eq_true_eq] at h
      obtain ⟨⟨⟨⟨h1,h2⟩,h3⟩,h4⟩,h5⟩ := h
      refine ⟨_,c,hc,_,_,⟨h4,h5⟩,?_⟩
      exact Prod.ext (by simp only; omega) (by simp only; omega)
    · cases h
  · rintro ⟨i,c,hc,dy,dx,⟨hcode,hstar⟩,rfl⟩
    have hdx := dx.isLt
    have hdy := dy.isLt
    have hi : ((x+8*(i : ℤ)+dx.val-x)/8).toNat = i := by omega
    have hu : (x+8*(i : ℤ)+dx.val-x).toNat%8 = dx.val := by omega
    have hv : (y+(dy.val : ℤ)-y).toNat%16 = dy.val := by omega
    simp only [starAt, hi, hc, hu, hv, Fin.eta, hcode, hstar, Bool.and_eq_true,
      decide_eq_true_eq, decide_true, and_true]
    omega

/-- What a turn over the colours demands. -/
def PairFits (b : Bitmap) (left : ℤ) (ci : UInt32 × ℕ) : Prop :=
  CornersInRange b left (64*(ci.2 : ℕ)) 64 64 ∧ CornersInRange b (left+64) (64*(ci.2 : ℕ)) 64 64

/-- A colour and, to its right, the complement. -/
def pairPicture (left : ℤ) (ci : UInt32 × ℕ) : Picture := fun p =>
  if left ≤ p.1 ∧ p.1 < left+128 ∧ 64*(ci.2 : ℕ) ≤ p.2 ∧ p.2 < 64*(ci.2 : ℕ)+64 then
    some (if p.1 < left+64 then ci.1 else ~~~ci.1)
  else none

theorem expect_ok (x : Draw Unit) (message : String) (b b' : Bitmap)
    (h : x b = .ok (.ok (),b')) : expect x message b = .ok (.ok (),b') := by
  rw [expect, h]
  rfl

theorem expect_error (x : Draw Unit) (message m : String) (b b' : Bitmap)
    (h : x b = .ok (.error m,b')) :
    expect x message b = .error (.panic (expectMessage message m)) := by
  rw [expect, h]
  rfl

section Square
variable (b : Bitmap) (hb : BufferOk b) (color : UInt32) (x y : ℤ)
include hb

theorem square_shown (hc : CornersInRange b x y 64 64) : ∃ b',
    expect (fillRect color x y 64 64) "fill_rect failed" b = .ok (.ok (),b') ∧
      Shown (solid color (fun p => x ≤ p.1 && p.1 < x+64 && (y ≤ p.2 && p.2 < y+64))) b b' := by
  have hmin : i64Min = -i64Max-1 := rfl
  obtain ⟨h1,h2⟩ := inRange_small b hb _ _ hc.1
  obtain ⟨h3,h4⟩ := inRange_small b hb _ _ hc.2
  have h5 := hc.1.1
  have h6 := hc.1.2.2.1
  have hf : CornersFit x y 64 64 :=
    ⟨⟨by omega,by omega⟩,⟨by omega,by omega⟩,⟨by omega,by omega⟩,by omega,by omega⟩
  obtain ⟨b',hrun,hp⟩ := fillRect_paints color x y 64 64 hf b hb hc
  refine ⟨b',expect_ok _ _ b b' hrun,painted_shown color _ b b' hp ?_ _ ?_⟩
  · exact fun p hpr => inRange_inLine b p (rect_inRange b x y 64 64 hc p hpr)
  · intro p
    simp only [Bool.and_eq_true, decide_eq_true_eq, rect, Set.mem_ofPred_eq, and_assoc]

theorem square_panics (hy : y ≤ 256) (hy0 : 0 ≤ y) (hc : ¬ CornersInRange b x y 64 64) :
    expect (fillRect color x y 64 64) "fill_rect failed" b =
      .error (.panic (expectMessage "fill_rect failed" "Out of Range")) := by
  have hmin : i64Min = -2^63 := rfl
  have hmax : i64Max = 2^63-1 := rfl
  apply expect_error _ _ "Out of Range" b b
  apply fillRect_rejects color x y 64 64 b _ hc
  constructor
  · intro hin
    have hsmall := inRange_small b hb _ _ hin
    have hx0 := hin.1
    omega
  · intro _ _
    omega

end Square

section Pair
variable (b : Bitmap) (hb : BufferOk b) (left : ℤ) (ci : UInt32 × ℕ) (hi : ci.2 < 4)
include hb hi

theorem drawPair_shown (h : PairFits b left ci) : ∃ b',
    drawPair left ci b = .ok (.ok (),b') ∧ Shown (pairPicture left ci) b b' := by
  have hmin : i64Min = -2^63 := rfl
  have hmax : i64Max = 2^63-1 := rfl
  obtain ⟨h1,h2⟩ := h
  have hy : mulI64 ci.2 64 = .ok (64*(ci.2 : ℤ)) := by
    rw [mulI64_ok _ _ ⟨by omega,by omega⟩, mul_comm]
  have hx0 := h1.1.1
  have hsmall := inRange_small b hb _ _ h1.1
  have hright : addI64 left 64 = .ok (left+64) := addI64_ok _ _ ⟨by omega,by omega⟩
  obtain ⟨b1,hrun1,hs1⟩ := square_shown b hb ci.1 left _ h1
  obtain ⟨b2,hrun2,hs2⟩ := square_shown b1 (shown_bufferOk _ b b1 hs1 hb) (~~~ci.1) (left+64)
    (64*(ci.2 : ℕ))
    ⟨(shown_inRange _ b b1 hs1 _ _).mpr h2.1,(shown_inRange _ b b1 hs1 _ _).mpr h2.2⟩
  refine ⟨b2,?_,?_⟩
  · rw [drawPair, run_bind _ _ _ _ _ (observe_ok _ b _ hy), run_bind _ _ _ _ _ hrun1,
      run_bind _ _ _ _ _ (observe_ok _ b1 _ hright)]
    exact hrun2
  · have hpic : pairPicture left ci = onTop
        (solid (~~~ci.1) (fun p => left+64 ≤ p.1 && p.1 < left+64+64 &&
          (64*(ci.2 : ℕ) ≤ p.2 && p.2 < 64*(ci.2 : ℕ)+64)))
        (solid ci.1 (fun p => left ≤ p.1 && p.1 < left+64 &&
          (64*(ci.2 : ℕ) ≤ p.2 && p.2 < 64*(ci.2 : ℕ)+64))) := by
      funext p
      simp only [pairPicture, onTop, solid, Bool.and_eq_true, decide_eq_true_eq]
      by_cases hrow : 64*(ci.2 : ℤ) ≤ p.2 ∧ p.2 < 64*(ci.2 : ℤ)+64
      · simp only [hrow, and_true]
        by_cases hlow : p.1 < left+64
        · rw [if_neg (by omega : ¬ (left+64 ≤ p.1 ∧ p.1 < left+64+64)), if_pos hlow, Option.none_or]
          simp only [hlow, and_true]
          simp only [show p.1 < left+128 by omega, and_true]
        · rw [if_neg hlow, if_neg (by omega : ¬ (left ≤ p.1 ∧ p.1 < left+64)), Option.or_none]
          congr 1
          simp only [eq_iff_iff]
          omega
      · rw [if_neg (fun h => hrow h.2.2), if_neg (fun h => hrow h.2), if_neg (fun h => hrow h.2)]
        rfl
    rw [hpic]
    exact shown_trans _ _ b b1 b2 hs1 hs2

theorem drawPair_panics (h : ¬ PairFits b left ci) :
    drawPair left ci b =
      .error (.panic (expectMessage "fill_rect failed" "Out of Range")) := by
  have hmin : i64Min = -2^63 := rfl
  have hmax : i64Max = 2^63-1 := rfl
  have hy : mulI64 ci.2 64 = .ok (64*(ci.2 : ℤ)) := by
    rw [mulI64_ok _ _ ⟨by omega,by omega⟩, mul_comm]
  rw [drawPair, run_bind _ _ _ _ _ (observe_ok _ b _ hy)]
  by_cases h1 : CornersInRange b left (64*(ci.2 : ℤ)) 64 64
  · have hx0 := h1.1.1
    have hsmall := inRange_small b hb _ _ h1.1
    have hright : addI64 left 64 = .ok (left+64) := addI64_ok _ _ ⟨by omega,by omega⟩
    obtain ⟨b1,hrun1,hs1⟩ := square_shown b hb ci.1 left _ h1
    rw [run_bind _ _ _ _ _ hrun1, run_bind _ _ _ _ _ (observe_ok _ b1 _ hright)]
    apply square_panics b1 (shown_bufferOk _ b b1 hs1 hb) (~~~ci.1) _ _ (by omega) (by omega)
    intro hc
    exact h ⟨h1,(shown_inRange _ b b1 hs1 _ _).mp hc.1,(shown_inRange _ b b1 hs1 _ _).mp hc.2⟩
  · exact run_bind_fault _ _ b _ (square_panics b hb ci.1 left _ (by omega) (by omega) h1)

end Pair

/-- The pattern is 128 places wide and 256 high, without its last lines. -/
def Roomy (b : Bitmap) : Prop :=
  129 ≤ b.width ∧ b.width-2 < b.pixelsPerLine ∧ 256 ≤ b.height

theorem roomy_iff (b : Bitmap) :
    Roomy b ↔ ∀ ci ∈ colors.zipIdx, PairFits b (b.width-129) ci := by
  constructor
  · rintro ⟨h1,h2,h3⟩ ⟨c,i⟩ hci
    have hi : i < 4 := (List.getElem?_eq_some_iff.mp (List.mem_zipIdx_iff_getElem?.mp hci)).1
    simp only [PairFits, CornersInRange, InRange, lt_min_iff]
    omega
  · intro h
    obtain ⟨⟨⟨h1,-⟩,-⟩,-⟩ := h (0x000000,0) (by decide)
    obtain ⟨-,-,-,h2,-,h3⟩ := h (0x0000ff,3) (by decide)
    rw [lt_min_iff] at h2
    have h4 : 255 < b.height := by simpa using h3
    exact ⟨by omega,by omega,by omega⟩

/-- The lines between the points that are visible. -/
def lines (b : Bitmap) (left : ℤ) : Set (ℤ × ℤ) :=
  {r | ∃ p ∈ points, ∃ q ∈ points, InRange b (left+p.1) p.2 ∧ InRange b (left+q.1) q.2 ∧
    r ∈ trail (left+p.1,p.2) (left+q.1,q.2)}

theorem lines_paint (b : Bitmap) (hb : BufferOk b) (left : ℤ) (h0 : 0 ≤ left)
    (h1 : left+128 ≤ i64Max) : Paints 0xffffff (lines b left)
      (points.forM (fun p => points.forM (drawBetween left p))) b := by
  have hmin : i64Min = -i64Max-1 := rfl
  have hpoint : ∀ p ∈ points, addI64 left p.1 = .ok (left+p.1) := by
    intro p hp
    have hrange : ∀ p ∈ points, 0 ≤ p.1 ∧ p.1 ≤ 128 := by decide
    have hp1 := hrange p hp
    exact addI64_ok _ _ ⟨by omega,by omega⟩
  have hturn : ∀ p ∈ points, ∀ q ∈ points, ∀ b', BufferOk b' →
      (∀ x y, InRange b' x y ↔ InRange b x y) → Paints 0xffffff
        {r | InRange b (left+p.1) p.2 ∧ InRange b (left+q.1) q.2 ∧
          r ∈ trail (left+p.1,p.2) (left+q.1,q.2)} (drawBetween left p q) b' := by
    intro p hp q hq b' hb' hr
    rw [Paints, drawBetween, run_bind _ _ _ _ _ (observe_ok _ b' _ (hpoint p hp)),
      run_bind _ _ _ _ _ (observe_ok _ b' _ (hpoint q hq))]
    by_cases hin : InRange b (left+p.1) p.2 ∧ InRange b (left+q.1) q.2
    · obtain ⟨b2,hrun,hpaint⟩ := drawLine_paints b' (left+p.1,p.2) (left+q.1,q.2)
        ((hr _ _).mpr hin.1) ((hr _ _).mpr hin.2) hb' 0xffffff
      have hrun' : drawLine 0xffffff (left+p.1) p.2 (left+q.1) q.2 b' = .ok (.ok (),b2) := hrun
      refine ⟨b2,?_,?_⟩
      · rw [Text.discard, hrun']
        rfl
      · have htrail : {r | InRange b (left+p.1) p.2 ∧ InRange b (left+q.1) q.2 ∧
            r ∈ trail (left+p.1,p.2) (left+q.1,q.2)} = trail (left+p.1,p.2) (left+q.1,q.2) :=
          Set.ext (fun r => by simp [hin])
        rwa [htrail]
    · have hrun : drawLine 0xffffff (left+p.1) p.2 (left+q.1) q.2 b' =
          .ok (.error "Out of Range",b') :=
        drawLine_rejects b' 0xffffff (left+p.1,p.2) (left+q.1,q.2)
          (fun h => hin ⟨(hr _ _).mp h.1,(hr _ _).mp h.2⟩)
      refine ⟨b',?_,?_⟩
      · rw [Text.discard, hrun]
        rfl
      · have hempty : {r | InRange b (left+p.1) p.2 ∧ InRange b (left+q.1) q.2 ∧
            r ∈ trail (left+p.1,p.2) (left+q.1,q.2)} = ∅ :=
          Set.eq_empty_of_forall_notMem (fun r hr' => hin ⟨hr'.1,hr'.2.1⟩)
        rw [hempty]
        exact painted_empty 0xffffff b'
  exact forM_paints 0xffffff _ _ points b hb (fun p hp b1 hb1 hr1 =>
    forM_paints 0xffffff _ _ points b1 hb1 (fun q hq b2 hb2 hr2 =>
      hturn p hp q hq b2 hb2 (fun x y => (hr2 x y).trans (hr1 x y))))

/-- A square with its diagonals, or only its left side. -/
def onFigure (whole : Bool) (u v : ℤ) : Bool :=
  0 ≤ u && u ≤ 128 && 0 ≤ v && v ≤ 128 &&
    (u = 0 || whole && (u = 128 || v = 0 || v = 128 || u = v || u+v = 128))

theorem onFigure_iff (whole : Bool) (u v : ℤ) : onFigure whole u v = true ↔
    0 ≤ u ∧ u ≤ 128 ∧ 0 ≤ v ∧ v ≤ 128 ∧
      (u = 0 ∨ whole = true ∧ (u = 128 ∨ v = 0 ∨ v = 128 ∨ u = v ∨ u+v = 128)) := by
  simp only [onFigure, Bool.and_eq_true, Bool.or_eq_true, decide_eq_true_eq, and_assoc, or_assoc]

theorem mem_between (left : ℤ) (p q : ℤ × ℤ) (hp : p ∈ points) (hq : q ∈ points) (r : ℤ × ℤ) :
    r ∈ trail (left+p.1,p.2) (left+q.1,q.2) ↔ p ≠ q ∧ ∃ k, (0 ≤ k ∧ k < 128) ∧
      128*(r.1-left-p.1) = k*(q.1-p.1) ∧ 128*(r.2-p.2) = k*(q.2-p.2) := by
  by_cases hne : p = q
  · subst hne
    simp [trail, steps]
  · have hall : ∀ p ∈ points, ∀ q ∈ points, p ≠ q → max |q.1-p.1| |q.2-p.2| = 128 ∧
        (|q.1-p.1| = 0 ∨ |q.1-p.1| = 128) ∧ (|q.2-p.2| = 0 ∨ |q.2-p.2| = 128) := by decide
    obtain ⟨hs,hx,hy⟩ := hall p hp q hq hne
    have hshift : left+q.1-(left+p.1) = q.1-p.1 := by omega
    rw [mem_trail_straight (left+p.1,p.2) (left+q.1,q.2) 128 (by decide)
      (by rw [steps, hshift, hs]) (by rwa [hshift]) hy r]
    simp only [add_sub_add_left_eq_sub, sub_sub, ne_eq, hne, not_false_eq_true, true_and]

theorem mem_lines (b : Bitmap) (hr : Roomy b) (r : ℤ × ℤ) : r ∈ lines b (b.width-129) ↔
    onFigure (b.width ≤ b.pixelsPerLine) (r.1-(b.width-129)) r.2 = true := by
  obtain ⟨h1,h2,h3⟩ := hr
  rw [onFigure_iff, decide_eq_true_eq]
  have hrange : ∀ p ∈ points, InRange b (b.width-129+p.1) p.2 ↔
      p.1 = 0 ∨ b.width ≤ b.pixelsPerLine := by
    intro p hp
    have hside : ∀ p ∈ points, (p.1 = 0 ∨ p.1 = 128) ∧ (p.2 = 0 ∨ p.2 = 128) := by decide
    have hp1 := hside p hp
    rw [InRange, lt_min_iff]
    omega
  constructor
  · rintro ⟨p,hp,q,hq,hin1,hin2,ht⟩
    rw [hrange p hp] at hin1
    rw [hrange q hq] at hin2
    obtain ⟨hne,k,hk,hu,hv⟩ := (mem_between _ p q hp hq r).mp ht
    simp only [points, List.mem_cons, List.not_mem_nil, or_false] at hp hq
    rcases hp with rfl | rfl | rfl | rfl <;> rcases hq with rfl | rfl | rfl | rfl <;>
      simp only [ne_eq, not_true_eq_false] at hne hu hv hin1 hin2 ⊢ <;> omega
  · rintro ⟨hu0,hu,hv0,hv,hshape⟩
    have hside : ∀ p ∈ points, ∀ q ∈ points, p ≠ q → (p.1 = 0 ∨ b.width ≤ b.pixelsPerLine) →
        (q.1 = 0 ∨ b.width ≤ b.pixelsPerLine) → ∀ k, 0 ≤ k → k ≤ 128 →
        128*(r.1-(b.width-129)-p.1) = k*(q.1-p.1) → 128*(r.2-p.2) = k*(q.2-p.2) →
        r ∈ lines b (b.width-129) := by
      intro p hp q hq hne hin1 hin2 k hk0 hk hx hy
      by_cases hend : k = 128
      · -- a line does not draw its end, the line back begins there
        subst hend
        exact ⟨q,hq,p,hp,(hrange q hq).mpr hin2,(hrange p hp).mpr hin1,
          (mem_between _ q p hq hp r).mpr ⟨hne.symm,0,by decide,by omega,by omega⟩⟩
      · exact ⟨p,hp,q,hq,(hrange p hp).mpr hin1,(hrange q hq).mpr hin2,
          (mem_between _ p q hp hq r).mpr ⟨hne,k,⟨hk0,by omega⟩,hx,hy⟩⟩
    rcases hshape with hleft | ⟨hwhole,hright | htop | hbottom | hdown | hup⟩
    · exact hside (0,0) (by decide) (0,128) (by decide) (by decide) (Or.inl rfl) (Or.inl rfl) r.2
        hv0 hv (by simp only; omega) (by simp only; omega)
    · exact hside (128,0) (by decide) (128,128) (by decide) (by decide) (Or.inr hwhole)
        (Or.inr hwhole) r.2 hv0 hv (by simp only; omega) (by simp only; omega)
    · exact hside (0,0) (by decide) (128,0) (by decide) (by decide) (Or.inl rfl) (Or.inr hwhole) _
        hu0 hu (by simp only; omega) (by simp only; omega)
    · exact hside (0,128) (by decide) (128,128) (by decide) (by decide) (Or.inl rfl)
        (Or.inr hwhole) _ hu0 hu (by simp only; omega) (by simp only; omega)
    · exact hside (0,0) (by decide) (128,128) (by decide) (by decide) (Or.inl rfl)
        (Or.inr hwhole) _ hu0 hu (by simp only; omega) (by simp only; omega)
    · exact hside (0,128) (by decide) (128,0) (by decide) (by decide) (Or.inl rfl)
        (Or.inr hwhole) _ hu0 hu (by simp only; omega) (by simp only; omega)

/-- The rectangles, by the row and the half that a place lies in. -/
def squares (left : ℤ) : Picture := fun p =>
  if left ≤ p.1 ∧ p.1 < left+128 ∧ 0 ≤ p.2 ∧ p.2 < 256 then
    (colors[(p.2/64).toNat]?).map (fun c => if p.1 < left+64 then c else ~~~c)
  else none

theorem pairs_picture (left : ℤ) : colors.zipIdx.foldl
    (fun below ci => onTop (pairPicture left ci) below) blank = squares left := by
  funext p
  simp only [colors, List.zipIdx_cons, List.zipIdx_nil, List.foldl_cons, List.foldl_nil, onTop,
    blank, Option.or_none, squares, pairPicture]
  by_cases hx : left ≤ p.1 ∧ p.1 < left+128
  · by_cases hy : 0 ≤ p.2 ∧ p.2 < 256
    · rw [if_pos (by omega : left ≤ p.1 ∧ p.1 < left+128 ∧ 0 ≤ p.2 ∧ p.2 < 256)]
      have hrow : p.2/64 = 0 ∨ p.2/64 = 1 ∨ p.2/64 = 2 ∨ p.2/64 = 3 := by omega
      rcases hrow with h | h | h | h
      · rw [h, if_neg (by push_cast; omega), if_neg (by push_cast; omega),
          if_neg (by push_cast; omega), if_pos (by push_cast; omega)]
        rfl
      · rw [h, if_neg (by push_cast; omega), if_neg (by push_cast; omega),
          if_pos (by push_cast; omega)]
        rfl
      · rw [h, if_neg (by push_cast; omega), if_pos (by push_cast; omega)]
        rfl
      · rw [h, if_pos (by push_cast; omega)]
        rfl
    · simp only [if_neg (fun h : left ≤ p.1 ∧ p.1 < left+128 ∧ 0 ≤ p.2 ∧ p.2 < 256 => hy h.2.2)]
      rw [if_neg (by push_cast; omega), if_neg (by push_cast; omega), if_neg (by push_cast; omega),
        if_neg (by push_cast; omega)]
      rfl
  · simp only [← and_assoc, hx, false_and, if_false, Option.or_none]

/-- The colours of the pattern: text over lines over rectangles. -/
def patternColor (font : FontTable) (b : Bitmap) : Picture := fun p =>
  let u := p.1-(b.width-129)
  if InRange b p.1 p.2 ∧
      (starAt font letters u (p.2-272) = true ∨ starAt font digits u (p.2-256) = true) then
    some 0x00ff00
  else if onFigure (b.width ≤ b.pixelsPerLine) u p.2 then some 0xffffff
  else squares (b.width-129) p

theorem lines_inLine (b : Bitmap) (left : ℤ) : ∀ r ∈ lines b left, InLine b r := by
  rintro r ⟨p,-,q,-,hp,hq,hr⟩
  exact trail_inLine b (left+p.1,p.2) (left+q.1,q.2) hp hq r hr

theorem left_small (b : Bitmap) (hb : BufferOk b) (hroom : Roomy b) :
    0 ≤ b.width-129 ∧ 4*(b.width-2) < i64Max := by
  obtain ⟨h1,h2,h3⟩ := hroom
  have hin : InRange b (b.width-2) 0 :=
    ⟨by omega,by rw [lt_min_iff]; omega,le_rfl,by omega⟩
  exact ⟨by omega,(inRange_small b hb _ _ hin).1⟩

section Stages
variable (b0 b : Bitmap) (hb : BufferOk b0) (pic : Picture) (hs : Shown pic b0 b)
include hb hs

/-- A text of the pattern. -/
theorem text_shown (font : FontTable) (x y : ℤ) (hx : InI64 x ∧ InI64 (x+80))
    (hy : InI64 y ∧ InI64 (y+15)) (s : List Char) (hlen : s.length ≤ 10) :
    ∃ b', drawStrFg font x y 0x00ff00 s b = .ok (.ok (),b') ∧
      Shown (onTop (solid 0x00ff00
        (fun p => InRange b0 p.1 p.2 && starAt font s (p.1-x) (p.2-y))) pic) b0 b' := by
  have hmin : i64Min = -2^63 := rfl
  have hmax : i64Max = 2^63-1 := rfl
  obtain ⟨⟨h1,h2⟩,h3,h4⟩ := hx
  have hr := shown_inRange pic b0 b hs
  obtain ⟨b',hrun,hp⟩ := drawStrFg_paints font x y 0x00ff00 s
    ⟨⟨h1,h2⟩,by omega,by omega⟩ (by omega) hy b (shown_bufferOk pic b0 b hs hb)
  refine ⟨b',hrun,shown_trans pic _ b0 b b' hs (painted_shown _ _ b b' hp ?_ _ ?_)⟩
  · exact fun p hpS => inRange_inLine b p hpS.2
  · intro p
    rw [Bool.and_eq_true, decide_eq_true_eq, starAt_iff, ← hr p.1 p.2]
    exact and_comm

variable (hroom : Roomy b0)
include hroom

theorem figure_shown : ∃ b',
    points.forM (fun p => points.forM (drawBetween (b0.width-129) p)) b = .ok (.ok (),b') ∧
      Shown (onTop (solid 0xffffff
        (fun p => onFigure (b0.width ≤ b0.pixelsPerLine) (p.1-(b0.width-129)) p.2)) pic) b0 b' := by
  obtain ⟨h0,h1⟩ := left_small b0 hb hroom
  have hmax : i64Max = 2^63-1 := rfl
  have hr := shown_inRange pic b0 b hs
  obtain ⟨b',hrun,hp⟩ := lines_paint b (shown_bufferOk pic b0 b hs hb) (b0.width-129) h0 (by omega)
  have hlines : lines b (b0.width-129) = lines b0 (b0.width-129) := by
    simp only [lines, hr]
  refine ⟨b',hrun,shown_trans pic _ b0 b b' hs
    (painted_shown _ _ b b' hp (lines_inLine b _) _ ?_)⟩
  intro p
  rw [hlines, mem_lines b0 hroom p]

omit hs in
theorem squares_shown : ∃ b', colors.zipIdx.forM (drawPair (b0.width-129)) b0 = .ok (.ok (),b') ∧
    Shown (squares (b0.width-129)) b0 b' := by
  rw [← pairs_picture]
  apply forM_shown _ _ _ blank b0 b0 hb (shown_blank b0)
  rintro ⟨c,i⟩ hci b1 hb1 hr1
  have hi : i < 4 := (List.getElem?_eq_some_iff.mp (List.mem_zipIdx_iff_getElem?.mp hci)).1
  obtain ⟨⟨h1,h2⟩,h3,h4⟩ := (roomy_iff b0).mp hroom _ hci
  exact drawPair_shown b1 hb1 _ _ hi ⟨⟨(hr1 _ _).mpr h1,(hr1 _ _).mpr h2⟩,(hr1 _ _).mpr h3,
    (hr1 _ _).mpr h4⟩

end Stages

/-- Rectangles that do not fit stop the loop. -/
theorem squares_panic (b : Bitmap) (hb : BufferOk b) (hroom : ¬ Roomy b) : ∃ message,
    colors.zipIdx.forM (drawPair (b.width-129)) b = .error (.panic message) := by
  have hloop := yields_forM (fun e => ∃ message, e = .panic message) (drawPair (b.width-129))
    (fun done b' => (BufferOk b' ∧ ∀ x y, InRange b' x y ↔ InRange b x y) ∧
      ∀ ci ∈ done, PairFits b (b.width-129) ci) colors.zipIdx [] b ?_
    ⟨⟨hb,fun _ _ => Iff.rfl⟩,fun _ h => (List.not_mem_nil h).elim⟩
  · rcases hloop with ⟨e,⟨message,rfl⟩,he⟩ | ⟨_,_,-,-,hall⟩
    · exact ⟨message,he⟩
    · rw [List.nil_append] at hall
      exact absurd ((roomy_iff b).mpr hall) hroom
  · rintro done ⟨c,i⟩ b1 hci ⟨⟨hb1,hr1⟩,hdone⟩
    have hi : i < 4 := (List.getElem?_eq_some_iff.mp (List.mem_zipIdx_iff_getElem?.mp hci)).1
    have hfit : PairFits b1 (b.width-129) (c,i) ↔ PairFits b (b.width-129) (c,i) := by
      simp only [PairFits, CornersInRange, hr1]
    by_cases h : PairFits b1 (b.width-129) (c,i)
    · obtain ⟨b2,hrun,hs⟩ := drawPair_shown b1 hb1 _ _ hi h
      refine Or.inr ⟨(),b2,hrun,⟨shown_bufferOk _ b1 b2 hs hb1,
        fun x y => (shown_inRange _ b1 b2 hs x y).trans (hr1 x y)⟩,?_⟩
      intro ci hmem
      rcases List.mem_append.mp hmem with hmem | hmem
      · exact hdone ci hmem
      · rw [List.mem_singleton.mp hmem]
        exact hfit.mp h
    · exact Or.inl ⟨_,⟨_,rfl⟩,drawPair_panics b1 hb1 _ _ hi h⟩

theorem patternLeft_cases (width : ℤ) : patternLeft width = .ok (width-129) ∨
    ∃ message, patternLeft width = .error (.panic message) := by
  by_cases h1 : InI64 (width-128)
  · have hsub : width-128-1 = width-129 := by omega
    rw [patternLeft, subI64_ok _ _ h1, ok_bind, subI64, hsub]
    split_ifs
    · exact Or.inl rfl
    · exact Or.inr ⟨_,rfl⟩
  · right
    rw [patternLeft, subI64, if_neg h1]
    exact ⟨_,rfl⟩

theorem pattern_drawn (font : FontTable) (b : Bitmap) (hb : BufferOk b) (hroom : Roomy b) :
    ∃ b', drawTestPattern font b = .ok (.ok (),b') ∧ Shown (patternColor font b) b b' := by
  have hmin : i64Min = -2^63 := rfl
  have hmax : i64Max = 2^63-1 := rfl
  obtain ⟨h0,h1⟩ := left_small b hb hroom
  have hsub : b.width-128-1 = b.width-129 := by omega
  have hleft : patternLeft b.width = .ok (b.width-129) := by
    rw [patternLeft, subI64_ok _ _ ⟨by omega,by omega⟩, ok_bind,
      subI64_ok _ _ ⟨by omega,by omega⟩, hsub]
  have hy : mulI64 64 colors.length = .ok 256 := by decide
  have hy' : addI64 256 16 = .ok 272 := by decide
  obtain ⟨b1,hrun1,hs1⟩ := squares_shown b hb hroom
  obtain ⟨b2,hrun2,hs2⟩ := figure_shown b b1 hb _ hs1 hroom
  obtain ⟨b3,hrun3,hs3⟩ := text_shown b b2 hb _ hs2 font (b.width-129) 256
    ⟨⟨by omega,by omega⟩,by omega,by omega⟩ (by decide) digits (by decide)
  obtain ⟨b4,hrun4,hs4⟩ := text_shown b b3 hb _ hs3 font (b.width-129) 272
    ⟨⟨by omega,by omega⟩,by omega,by omega⟩ (by decide) letters (by decide)
  refine ⟨b4,?_,?_⟩
  · rw [drawTestPattern, run_bind _ _ _ _ _ (observe_ok _ b _ hleft),
      run_bind _ _ _ _ _ hrun1, run_bind _ _ _ _ _ hrun2,
      run_bind _ _ _ _ _ (observe_ok _ b2 _ hy), run_bind _ _ _ _ _ hrun3,
      run_bind _ _ _ _ _ (observe_ok _ b3 _ hy), run_bind _ _ _ _ _ (observe_ok _ b3 _ hy')]
    exact hrun4
  · have hpic : patternColor font b = onTop (solid 0x00ff00 (fun p => InRange b p.1 p.2 &&
        starAt font letters (p.1-(b.width-129)) (p.2-272))) (onTop (solid 0x00ff00 (fun p =>
        InRange b p.1 p.2 && starAt font digits (p.1-(b.width-129)) (p.2-256)))
        (onTop (solid 0xffffff (fun p => onFigure (b.width ≤ b.pixelsPerLine)
          (p.1-(b.width-129)) p.2)) (squares (b.width-129)))) := by
      funext p
      simp only [patternColor, onTop, solid, Bool.and_eq_true, decide_eq_true_eq]
      split_ifs <;> simp_all
    rw [hpic]
    exact hs4

theorem pattern_panics (font : FontTable) (b : Bitmap) (hb : BufferOk b) (hroom : ¬ Roomy b) :
    ∃ message, drawTestPattern font b = .error (.panic message) := by
  rcases patternLeft_cases b.width with hleft | ⟨message,hleft⟩
  · obtain ⟨message,hpanic⟩ := squares_panic b hb hroom
    refine ⟨message,?_⟩
    rw [drawTestPattern, run_bind _ _ _ _ _ (observe_ok _ b _ hleft)]
    exact run_bind_fault _ _ b _ hpanic
  · refine ⟨message,?_⟩
    rw [drawTestPattern]
    apply run_bind_fault _ _ b _
    rw [observe, hleft]
    rfl

/-- The pattern is drawn completely, or its rectangles do not fit and the
kernel panics. -/
theorem test_pattern_exact (font : FontTable) (b : Bitmap) (hb : BufferOk b) :
    (Roomy b → ∃ b', drawTestPattern font b = .ok (.ok (),b') ∧
      Shown (patternColor font b) b b') ∧
    (¬ Roomy b → ∃ message, drawTestPattern font b = .error (.panic message)) :=
  ⟨pattern_drawn font b hb,pattern_panics font b hb⟩

/-- A screen that cuts off the second half of the second text. -/
def low : Bitmap := ⟨4,160,150,280,179200,fun _ => 0⟩

theorem test_pattern_exact_low :
    ∃ b', drawTestPattern blocks low = .ok (.ok (),b') ∧ Shown (patternColor blocks low) low b' :=
  (test_pattern_exact blocks low ⟨rfl,rfl,by decide⟩).1 ⟨by decide,by decide,by decide⟩

example : patternColor blocks low (21,0) = some 0xffffff ∧
    patternColor blocks low (90,130) = some 0xffff00ff ∧
    patternColor blocks low (30,275) = some 0x00ff00 ∧ patternColor blocks low (30,285) = none := by
  decide

end Wasabi.Graphics.TestPattern
