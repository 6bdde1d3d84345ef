import Wasabi.Graphics.TestPattern
import Wasabi.Uefi.BootServices

/-!
# The screen at boot

The frame buffer is the one of the firmware's graphics mode. The visible part
is cleared and the test pattern is drawn on it, so every visible pixel is
determined by the mode and the font, and no other byte is written.
-/

set_option autoImplicit false

namespace Wasabi.Graphics.BootScreen
open Wasabi.Rust Wasabi.Outcome
open Wasabi.Graphics.Pixels Wasabi.Graphics.Painting Wasabi.Graphics.FillRect
open Wasabi.Graphics.Font Wasabi.Graphics.Text Wasabi.Graphics.Pictures
open Wasabi.Graphics.TestPattern
open Wasabi.Uefi.BootServices (locate)

structure PixelInfo where
  horizontalResolution : ℕ
  verticalResolution : ℕ
  pixelsPerScanLine : ℕ

structure GraphicsMode where
  info : PixelInfo
  frameBufferSize : ℕ

/-- `answer` is the mode behind the pointer if `locate_protocol` succeeds. -/
def locateGraphicProtocol (answer : Option GraphicsMode) : Eval (Except String GraphicsMode) :=
  locate answer "Failed to locate graphics output protocol"

/-- `VramBufferInfo`. The bytes of the frame buffer are `frame`. -/
def vramBufferInfo (gp : GraphicsMode) (frame : ℕ → UInt8) : Bitmap where
  bytesPerPixel := 4
  pixelsPerLine := gp.info.pixelsPerScanLine
  width := gp.info.horizontalResolution
  height := gp.info.verticalResolution
  size := gp.frameBufferSize
  buf := frame

def initVram (answer : Option GraphicsMode) (frame : ℕ → UInt8) : Eval (Except String Bitmap) := do
  match ← locateGraphicProtocol answer with
  | .error message => pure (.error message)
  | .ok gp => pure (.ok (vramBufferInfo gp frame))

/-- What `efi_main` draws. -/
def drawScreen (font : FontTable) : Draw Unit := do
  let vw ← observe (fun b => .ok b.width)
  let vh ← observe (fun b => .ok b.height)
  expect (fillRect 0x000000 0 0 vw vh) "fill_rect failed"
  drawTestPattern font

/-- The part of `efi_main` that sets up the screen. -/
def bootScreen (font : FontTable) (answer : Option GraphicsMode) (frame : ℕ → UInt8) :
    Eval Bitmap := do
  match ← initVram answer frame with
  | .error e => .error (.panic (expectMessage "init_vram failed" e))
  | .ok vram =>
    let (_,vram) ← drawScreen font vram
    pure vram

theorem patternColor_congr (font : FontTable) (b b' : Bitmap) (hw : b'.width = b.width)
    (hl : b'.pixelsPerLine = b.pixelsPerLine) (hr : ∀ x y, InRange b' x y ↔ InRange b x y) :
    patternColor font b' = patternColor font b := by
  funext p
  simp only [patternColor, hw, hl, hr]

theorem visible_corners (b : Bitmap) : CornersInRange b 0 0 b.width b.height ↔
    1 ≤ b.width ∧ b.width ≤ b.pixelsPerLine ∧ 1 ≤ b.height := by
  simp only [CornersInRange, InRange, lt_min_iff]
  omega

theorem drawScreen_eq (font : FontTable) (b : Bitmap) : drawScreen font b =
    (expect (fillRect 0x000000 0 0 b.width b.height) "fill_rect failed" >>=
      fun _ => drawTestPattern font) b := by
  rw [drawScreen, run_bind _ _ b b b.width (observe_ok (fun b => .ok b.width) b _ rfl),
    run_bind _ _ b b b.height (observe_ok (fun b => .ok b.height) b _ rfl)]

/-- On a screen that is wide enough the pattern is visible. -/
theorem pattern_visible (font : FontTable) (b : Bitmap) (hw : 129 ≤ b.width)
    (hl : b.width ≤ b.pixelsPerLine) (hh : 256 ≤ b.height) (p : ℤ × ℤ)
    (hp : patternColor font b p ≠ none) : InRange b p.1 p.2 := by
  rw [InRange, lt_min_iff]
  simp only [patternColor] at hp
  split_ifs at hp with htext hfigure
  · have hin := htext.1
    rwa [InRange, lt_min_iff] at hin
  · rw [onFigure_iff] at hfigure
    omega
  · by_cases hsquare : b.width-129 ≤ p.1 ∧ p.1 < b.width-129+128 ∧ 0 ≤ p.2 ∧ p.2 < 256
    · omega
    · rw [squares, if_neg hsquare] at hp
      exact absurd rfl hp

section Screen
variable (font : FontTable) (b : Bitmap) (hb : BufferOk b) (hw : b.width < 2^32)
  (hh : b.height < 2^32)
include hb hw hh

theorem clear_shown (hc : CornersInRange b 0 0 b.width b.height) : ∃ b1,
    expect (fillRect 0x000000 0 0 b.width b.height) "fill_rect failed" b = .ok (.ok (),b1) ∧
      Shown (solid 0x000000 (fun p => InRange b p.1 p.2)) b b1 := by
  have hmin : i64Min = -2^63 := rfl
  have hmax : i64Max = 2^63-1 := rfl
  obtain ⟨h1,h2,h3⟩ := (visible_corners b).mp hc
  obtain ⟨b1,hrun,hp⟩ := fillRect_paints 0x000000 0 0 b.width b.height
    ⟨⟨by omega,by omega⟩,⟨by omega,by omega⟩,⟨by omega,by omega⟩,by omega,by omega⟩ b hb hc
  refine ⟨b1,expect_ok _ _ b b1 hrun,painted_shown _ _ b b1 hp ?_ _ ?_⟩
  · exact fun p hpr => inRange_inLine b p (rect_inRange b 0 0 _ _ hc p hpr)
  · intro p
    rw [decide_eq_true_eq, InRange, lt_min_iff, rect, Set.mem_ofPred_eq]
    omega

theorem drawScreen_shown (hroom : 129 ≤ b.width ∧ b.width ≤ b.pixelsPerLine ∧ 256 ≤ b.height) :
    ∃ b', drawScreen font b = .ok (.ok (),b') ∧ Shown (onTop (patternColor font b)
      (solid 0x000000 (fun p => InRange b p.1 p.2))) b b' := by
  obtain ⟨h1,h2,h3⟩ := hroom
  obtain ⟨b1,hrun1,hs1⟩ := clear_shown b hb hw hh
    ((visible_corners b).mpr ⟨by omega,h2,by omega⟩)
  have hw1 : b1.width = b.width := by rw [hs1.shape]
  have hl1 : b1.pixelsPerLine = b.pixelsPerLine := by rw [hs1.shape]
  have hh1 : b1.height = b.height := by rw [hs1.shape]
  obtain ⟨b',hrun,hs⟩ := pattern_drawn font b1 (shown_bufferOk _ b b1 hs1 hb)
    ⟨by omega,by omega,by omega⟩
  rw [patternColor_congr font b b1 hw1 hl1 (shown_inRange _ b b1 hs1)] at hs
  refine ⟨b',?_,shown_trans _ _ b b1 b' hs1 hs⟩
  rw [drawScreen_eq, run_bind _ _ _ _ _ hrun1]
  exact hrun

theorem drawScreen_panics
    (hroom : ¬ (129 ≤ b.width ∧ b.width ≤ b.pixelsPerLine ∧ 256 ≤ b.height)) :
    ∃ message, drawScreen font b = .error (.panic message) := by
  have hmin : i64Min = -2^63 := rfl
  have hmax : i64Max = 2^63-1 := rfl
  rw [drawScreen_eq]
  by_cases hc : CornersInRange b 0 0 b.width b.height
  · obtain ⟨b1,hrun1,hs1⟩ := clear_shown b hb hw hh hc
    have hw1 : b1.width = b.width := by rw [hs1.shape]
    have hh1 : b1.height = b.height := by rw [hs1.shape]
    have hsmall : ¬ Roomy b1 := by
      rintro ⟨h1,-,h3⟩
      exact hroom ⟨by omega,((visible_corners b).mp hc).2.1,by omega⟩
    rw [run_bind _ _ _ _ _ hrun1]
    exact pattern_panics font b1 (shown_bufferOk _ b b1 hs1 hb) hsmall
  · have hrejects := fillRect_rejects 0x000000 0 0 b.width b.height b ⟨?_,?_⟩ hc
    · exact ⟨_,run_bind_fault _ _ b _ (expect_error _ "fill_rect failed" _ b b hrejects)⟩
    · intro hin
      have h0 := hin.2.1
      rw [lt_min_iff] at h0
      omega
    · intro hin _
      have h0 := hin.2.2.2
      omega

end Screen

/-- The mode is one of the graphics protocol, and its buffer is as large as the
protocol says. -/
structure ModeOk (gp : GraphicsMode) : Prop where
  width : gp.info.horizontalResolution < 2^32
  height : gp.info.verticalResolution < 2^32
  size : gp.frameBufferSize = 4*gp.info.pixelsPerScanLine*gp.info.verticalResolution
  bound : gp.frameBufferSize < 2^63

/-- A mode that has room for the pattern. -/
def Wide (info : PixelInfo) : Prop :=
  129 ≤ info.horizontalResolution ∧ info.horizontalResolution ≤ info.pixelsPerScanLine ∧
    256 ≤ info.verticalResolution

theorem vram_ok (gp : GraphicsMode) (h : ModeOk gp) (frame : ℕ → UInt8) :
    BufferOk (vramBufferInfo gp frame) := by
  have hbytes : ((4*gp.info.pixelsPerScanLine*gp.info.verticalResolution : ℕ) : ℤ) =
      4*(gp.info.pixelsPerScanLine : ℤ)*gp.info.verticalResolution := by
    push_cast
    rfl
  refine ⟨rfl,?_,?_⟩
  · simp only [vramBufferInfo, ← hbytes, h.size, Int.toNat_natCast]
  · have hbound := h.bound
    rw [h.size] at hbound
    simp only [vramBufferInfo, ← hbytes, i64Max]
    omega

/-- Without a graphics protocol the kernel reads behind the null pointer. In a
mode that is too small, or whose lines are shorter than its width, it panics.
In every other mode each visible pixel shows the pattern or is black, and no
other byte is written. -/
theorem boot_screen_exact (font : FontTable) (frame : ℕ → UInt8) :
    bootScreen font none frame = .error .undefinedBehaviour ∧
    ∀ gp, ModeOk gp →
      (Wide gp.info → ∃ b', bootScreen font (some gp) frame = .ok b' ∧
        (∀ p : ℤ × ℤ, InRange b' p.1 p.2 ↔ (0 ≤ p.1 ∧ p.1 < gp.info.horizontalResolution) ∧
          0 ≤ p.2 ∧ p.2 < gp.info.verticalResolution) ∧
        (∀ p : ℤ × ℤ, InRange b' p.1 p.2 → HasColor ((patternColor font b' p).getD 0) b' p) ∧
        ∀ i, (∀ p : ℤ × ℤ, InRange b' p.1 p.2 → i ∉ pixelBytes b' p) → b'.buf i = frame i) ∧
      (¬ Wide gp.info →
        ∃ message, bootScreen font (some gp) frame = .error (.panic message)) := by
  refine ⟨rfl,?_⟩
  intro gp hgp
  let b := vramBufferInfo gp frame
  have hb : BufferOk b := vram_ok gp hgp frame
  have hw : b.width = (gp.info.horizontalResolution : ℤ) := rfl
  have hh : b.height = (gp.info.verticalResolution : ℤ) := rfl
  have hl : b.pixelsPerLine = (gp.info.pixelsPerScanLine : ℤ) := rfl
  have hwidth := hgp.width
  have hheight := hgp.height
  have hrun : bootScreen font (some gp) frame = (do
      let (_,vram) ← drawScreen font b
      pure vram) := rfl
  constructor
  · rintro ⟨h1,h2,h3⟩
    obtain ⟨b',hdraw,hs⟩ := drawScreen_shown font b hb (by omega) (by omega)
      ⟨by omega,by omega,by omega⟩
    have hr := shown_inRange _ b b' hs
    have hcolor : patternColor font b' = patternColor font b :=
      patternColor_congr font b b' (by rw [hs.shape]) (by rw [hs.shape]) hr
    refine ⟨b',?_,?_,?_,?_⟩
    · rw [hrun, hdraw]
      rfl
    · intro p
      rw [hr, InRange, lt_min_iff]
      omega
    · intro p hp
      rw [hcolor]
      apply hs.colored p
      cases hc : patternColor font b p with
      | none => simp [onTop, hc, solid, (hr p.1 p.2).mp hp]
      | some c => simp [onTop, hc]
    · intro i hi
      apply hs.others i
      intro p hne
      rw [← shown_bytes _ b b' hs]
      apply hi p
      rw [hr]
      by_contra hout
      refine hne ((onTop_none_iff _ _ p).mpr ⟨?_,if_neg (by simpa using hout)⟩)
      by_contra hp
      exact hout (pattern_visible font b (by omega) (by omega) (by omega) p hp)
  · intro hwide
    have hroom : ¬ (129 ≤ b.width ∧ b.width ≤ b.pixelsPerLine ∧ 256 ≤ b.height) := by
      rintro ⟨h1,h2,h3⟩
      exact hwide ⟨by omega,by omega,by omega⟩
    obtain ⟨message,hpanic⟩ := drawScreen_panics font b hb (by omega) (by omega) hroom
    rw [hrun, hpanic]
    exact ⟨message,rfl⟩

def vga : GraphicsMode := ⟨⟨640,480,640⟩,1228800⟩

theorem boot_screen_exact_vga : ∃ b', bootScreen blocks (some vga) (fun _ => 7) = .ok b' ∧
    InRange b' 639 479 ∧
    (∀ p : ℤ × ℤ, InRange b' p.1 p.2 → HasColor ((patternColor blocks b' p).getD 0) b' p) ∧
    ∀ i, (∀ p : ℤ × ℤ, InRange b' p.1 p.2 → i ∉ pixelBytes b' p) → b'.buf i = 7 := by
  obtain ⟨b',hrun,hin,hcolor,hrest⟩ := ((boot_screen_exact blocks (fun _ => 7)).2 vga
    ⟨by decide,by decide,by decide,by decide⟩).1 ⟨by decide,by decide,by decide⟩
  exact ⟨b',hrun,(hin (639,479)).mpr ⟨⟨by decide,by decide⟩,by decide,by decide⟩,hcolor,hrest⟩

end Wasabi.Graphics.BootScreen
