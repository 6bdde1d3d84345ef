import Mathlib
import Wasabi.Rust
import Wasabi.Support.Outcome

/-!
# Bitmaps and single pixels

A bitmap is the four numbers of the trait and the bytes behind `buf_mut`,
counted from an aligned start. Pixel coordinates are `i64` and checked as in a
debug build; a pointer that leaves the buffer is undefined. What drawing leaves
is described by the set of pixels that have the colour.
-/

set_option autoImplicit false

namespace Wasabi.Graphics.Pixels
open Wasabi.Rust Wasabi.Outcome

structure Bitmap where
  bytesPerPixel : ℤ
  pixelsPerLine : ℤ
  width : ℤ
  height : ℤ
  size : ℕ
  buf : ℕ → UInt8

abbrev Draw (α : Type) := Stateful String Bitmap Fault α

def isInXRange (b : Bitmap) (px : ℤ) : Bool := 0 ≤ px && px < min b.width b.pixelsPerLine

def isInYRange (b : Bitmap) (py : ℤ) : Bool := 0 ≤ py && py < b.height

/-- The pointer, as its distance from `buf_mut`. -/
def uncheckedPixelAtMut (b : Bitmap) (x y : ℤ) : Eval ℕ := do
  let row ← mulI64 y b.pixelsPerLine
  let pixel ← addI64 row x
  let count ← mulI64 pixel b.bytesPerPixel
  if asUsize count ≤ b.size then pure (asUsize count) else .error .undefinedBehaviour

def pixelAtMut (b : Bitmap) (x y : ℤ) : Eval (Option ℕ) :=
  if isInXRange b x && isInYRange b y then do
    let p ← uncheckedPixelAtMut b x y
    pure (some p)
  else pure none

/-- Byte `k` of a colour in memory. -/
def colorByte (color : UInt32) (k : ℕ) : UInt8 := UInt8.ofNat (color.toNat >>> (8*k))

def store (b : Bitmap) (p : ℕ) (color : UInt32) : Bitmap :=
  {b with buf := fun i => if p ≤ i ∧ i < p+4 then colorByte color (i-p) else b.buf i}

/-- `*p = color`. -/
def writePixel (p : ℕ) (color : UInt32) : Draw Unit := fun b =>
  if p+4 ≤ b.size then .ok (.ok (),store b p color) else .error .undefinedBehaviour

def uncheckedDrawPoint (color : UInt32) (x y : ℤ) : Draw Unit := do
  let p ← observe (fun b => uncheckedPixelAtMut b x y)
  writePixel p color

def drawPoint (color : UInt32) (x y : ℤ) : Draw Unit := do
  let p ← observe (fun b => pixelAtMut b x y)
  match okOr p "Out of Range" with
  | .ok p => writePixel p color
  | .error message => throw message

/-- Four bytes for each pixel, in lines of `pixelsPerLine`. No object that a
pointer leads into is larger than `isize::MAX` bytes. -/
structure BufferOk (b : Bitmap) : Prop where
  bytes : b.bytesPerPixel = 4
  size : b.size = (4*b.pixelsPerLine*b.height).toNat
  bound : 4*b.pixelsPerLine*b.height ≤ i64Max

/-- The coordinates that may be drawn. -/
def InRange (b : Bitmap) (x y : ℤ) : Prop :=
  0 ≤ x ∧ x < min b.width b.pixelsPerLine ∧ 0 ≤ y ∧ y < b.height

instance (b : Bitmap) (x y : ℤ) : Decidable (InRange b x y) := instDecidableAnd

def offset (pixelsPerLine : ℤ) (p : ℤ × ℤ) : ℕ := ((p.2*pixelsPerLine+p.1)*4).toNat

def pixelBytes (b : Bitmap) (p : ℤ × ℤ) : Set ℕ :=
  Set.Ico (offset b.pixelsPerLine p) (offset b.pixelsPerLine p+4)

theorem inXRange_iff (b : Bitmap) (x : ℤ) :
    isInXRange b x = true ↔ 0 ≤ x ∧ x < min b.width b.pixelsPerLine := by
  simp [isInXRange]

theorem inYRange_iff (b : Bitmap) (y : ℤ) : isInYRange b y = true ↔ 0 ≤ y ∧ y < b.height := by
  simp [isInYRange]

theorem inRange_iff (b : Bitmap) (x y : ℤ) :
    (isInXRange b x && isInYRange b y) = true ↔ InRange b x y := by
  rw [Bool.and_eq_true, inXRange_iff, inYRange_iff, InRange, and_assoc]

/-- The product of an in-range row and the stride, and the pixel behind it. -/
theorem pixel_bounds (b : Bitmap) (x y : ℤ) (h : InRange b x y) :
    0 ≤ y*b.pixelsPerLine ∧ 0 ≤ y*b.pixelsPerLine+x ∧
      (y*b.pixelsPerLine+x)*4+4 ≤ 4*b.pixelsPerLine*b.height := by
  obtain ⟨hx0,hx1,hy0,hy1⟩ := h
  have hx2 : x+1 ≤ b.pixelsPerLine := by omega
  have hrow : 0 ≤ y*b.pixelsPerLine := mul_nonneg hy0 (by omega)
  have hrows : (y+1)*b.pixelsPerLine ≤ b.height*b.pixelsPerLine :=
    mul_le_mul_of_nonneg_right (by omega) (by omega)
  refine ⟨hrow,by omega,?_⟩
  linarith

theorem offset_mod (pixelsPerLine : ℤ) (p : ℤ × ℤ) : offset pixelsPerLine p%4 = 0 := by
  unfold offset
  omega

/-- A place in one of the lines, visible or padding. -/
def InLine (b : Bitmap) (p : ℤ × ℤ) : Prop :=
  0 ≤ p.1 ∧ p.1 < b.pixelsPerLine ∧ 0 ≤ p.2 ∧ p.2 < b.height

theorem inRange_inLine (b : Bitmap) (p : ℤ × ℤ) (h : InRange b p.1 p.2) : InLine b p := by
  obtain ⟨hx0,hx1,hy0,hy1⟩ := h
  exact ⟨hx0,by omega,hy0,hy1⟩

theorem inLine_offset (b : Bitmap) (p : ℤ × ℤ) (h : InLine b p) :
    ((offset b.pixelsPerLine p : ℕ) : ℤ) = (p.2*b.pixelsPerLine+p.1)*4 := by
  obtain ⟨hx0,hx1,hy0,-⟩ := h
  have hrow : 0 ≤ p.2*b.pixelsPerLine := mul_nonneg hy0 (by omega)
  rw [offset, Int.toNat_of_nonneg (by omega)]

theorem pixelBytes_inside (b : Bitmap) (hb : BufferOk b) (x y : ℤ) (h : InRange b x y) :
    offset b.pixelsPerLine (x,y)+4 ≤ b.size := by
  obtain ⟨-,-,h2⟩ := pixel_bounds b x y h
  have ho : ((offset b.pixelsPerLine (x,y) : ℕ) : ℤ) = (y*b.pixelsPerLine+x)*4 :=
    inLine_offset b (x,y) (inRange_inLine b (x,y) h)
  rw [hb.size]
  omega

/-- Different places have different bytes. -/
theorem pixelBytes_disjoint (b : Bitmap) (p q : ℤ × ℤ) (hp : InLine b p) (hq : InLine b q)
    (hne : p ≠ q) : Disjoint (pixelBytes b p) (pixelBytes b q) := by
  rw [Set.disjoint_left]
  rintro i ⟨h1,h2⟩ ⟨h3,h4⟩
  have hop := inLine_offset b p hp
  have hoq := inLine_offset b q hq
  have hsame : p.2*b.pixelsPerLine+p.1 = q.2*b.pixelsPerLine+q.1 := by omega
  obtain ⟨hpx0,hpx1,-,-⟩ := hp
  obtain ⟨hqx0,hqx1,-,-⟩ := hq
  have hx : p.1 = q.1 := by
    rw [← Int.emod_eq_of_lt hpx0 hpx1, ← Int.emod_eq_of_lt hqx0 hqx1,
      ← Int.mul_add_emod_self_right p.2 b.pixelsPerLine p.1, hsame, Int.mul_add_emod_self_right]
  have hpos : b.pixelsPerLine ≠ 0 := by omega
  have hy : p.2 = q.2 := by
    apply mul_right_cancel₀ hpos
    omega
  exact hne (Prod.ext hx hy)

theorem unchecked_pixel (b : Bitmap) (hb : BufferOk b) (x y : ℤ) (h : InRange b x y) :
    uncheckedPixelAtMut b x y = .ok (offset b.pixelsPerLine (x,y)) := by
  obtain ⟨h0,h1,h2⟩ := pixel_bounds b x y h
  have hin := pixelBytes_inside b hb x y h
  have hbound := hb.bound
  have hmax : i64Max = 2^63-1 := rfl
  have hmin : i64Min = -2^63 := rfl
  have hx0 := h.1
  have husize : asUsize ((y*b.pixelsPerLine+x)*4) = offset b.pixelsPerLine (x,y) :=
    asUsize_ok _ (by omega) (by omega)
  rw [uncheckedPixelAtMut, mulI64_ok _ _ ⟨by omega,by omega⟩, ok_bind,
    addI64_ok _ _ ⟨by omega,by omega⟩, ok_bind, hb.bytes, mulI64_ok _ _ ⟨by omega,by omega⟩,
    ok_bind, husize, if_pos (by omega)]
  rfl

/-- The buffer is not larger than the address space, so coordinates in range
are far from the ends of `i64`. -/
theorem inRange_small (b : Bitmap) (hb : BufferOk b) (x y : ℤ) (h : InRange b x y) :
    4*x < i64Max ∧ 4*y < i64Max := by
  obtain ⟨h0,h1,h2⟩ := pixel_bounds b x y h
  obtain ⟨hx0,hx1,hy0,hy1⟩ := h
  have hbound := hb.bound
  have hrow : y ≤ y*b.pixelsPerLine := le_mul_of_one_le_right hy0 (by omega)
  constructor
  · omega
  · omega

end Wasabi.Graphics.Pixels
