import Wasabi.Graphics.Pixels

/-!
# Painting sets of pixels

Drawing with one colour amounts to the set of pixels that get it. The order
of the single points and repetitions do not matter, so a loop paints the
union of what its turns paint.
-/

set_option autoImplicit false

namespace Wasabi.Graphics.Painting
open Wasabi.Rust Wasabi.Outcome Wasabi.Graphics.Pixels

/-- The pixels in `S` have the colour; every other byte is as before. -/
structure Painted (color : UInt32) (S : Set (ℤ × ℤ)) (b b' : Bitmap) : Prop where
  shape : b' = {b with buf := b'.buf}
  inside : ∀ p ∈ S, ∀ i ∈ pixelBytes b p, b'.buf i = colorByte color (i%4)
  outside : ∀ i, (∀ p ∈ S, i ∉ pixelBytes b p) → b'.buf i = b.buf i

theorem painted_empty (color : UInt32) (b : Bitmap) : Painted color ∅ b b :=
  ⟨rfl,fun _ hp => absurd hp (Set.notMem_empty _),fun _ _ => rfl⟩

theorem painted_bytes (color : UInt32) (S : Set (ℤ × ℤ)) (b b' : Bitmap) (h : Painted color S b b')
    (p : ℤ × ℤ) : pixelBytes b' p = pixelBytes b p := by
  rw [h.shape, pixelBytes, pixelBytes]

theorem painted_inRange (color : UInt32) (S : Set (ℤ × ℤ)) (b b' : Bitmap)
    (h : Painted color S b b') (x y : ℤ) : InRange b' x y ↔ InRange b x y := by
  rw [h.shape, InRange, InRange]

theorem painted_bufferOk (color : UInt32) (S : Set (ℤ × ℤ)) (b b' : Bitmap)
    (h : Painted color S b b') (hb : BufferOk b) : BufferOk b' := by
  rw [h.shape]
  exact ⟨hb.bytes,hb.size,hb.bound⟩

theorem painted_union (color : UInt32) (S T : Set (ℤ × ℤ)) (b b1 b2 : Bitmap)
    (h1 : Painted color S b b1) (h2 : Painted color T b1 b2) : Painted color (S ∪ T) b b2 := by
  have hbytes := painted_bytes color S b b1 h1
  refine ⟨?_,?_,?_⟩
  · have hshape := h2.shape
    rw [h1.shape] at hshape
    exact hshape
  · intro p hp i hi
    by_cases hT : ∃ q ∈ T, i ∈ pixelBytes b1 q
    · obtain ⟨q,hq,hiq⟩ := hT
      exact h2.inside q hq i hiq
    · rcases hp with hp | hp
      · rw [h2.outside i (fun q hq hiq => hT ⟨q,hq,hiq⟩)]
        exact h1.inside p hp i hi
      · exact absurd ⟨p,hp,hbytes p ▸ hi⟩ hT
  · intro i hi
    rw [h2.outside i (fun q hq hiq => hi q (Or.inr hq) (hbytes q ▸ hiq)),
      h1.outside i (fun q hq hiq => hi q (Or.inl hq) hiq)]

/-- The painted bitmap is determined by the set. -/
theorem painted_unique (color : UInt32) (S : Set (ℤ × ℤ)) (b b1 b2 : Bitmap)
    (h1 : Painted color S b b1) (h2 : Painted color S b b2) : b1 = b2 := by
  have hbuf : b1.buf = b2.buf := by
    funext i
    by_cases hi : ∃ p ∈ S, i ∈ pixelBytes b p
    · obtain ⟨p,hp,hip⟩ := hi
      rw [h1.inside p hp i hip, h2.inside p hp i hip]
    · rw [h1.outside i (fun p hp hip => hi ⟨p,hp,hip⟩),
        h2.outside i (fun p hp hip => hi ⟨p,hp,hip⟩)]
  rw [h1.shape, h2.shape, hbuf]

/-- A place that is not painted keeps its bytes. -/
theorem painted_others (color : UInt32) (S : Set (ℤ × ℤ)) (b b' : Bitmap)
    (h : Painted color S b b') (hS : ∀ p ∈ S, InLine b p) (q : ℤ × ℤ) (hq : InLine b q)
    (hqS : q ∉ S) (i : ℕ) (hi : i ∈ pixelBytes b q) : b'.buf i = b.buf i := by
  apply h.outside
  intro p hp hip
  have hne : p ≠ q := fun he => hqS (he ▸ hp)
  exact Set.disjoint_left.mp (pixelBytes_disjoint b p q (hS p hp) hq hne) hip hi

/-- The pixel shows the colour. -/
def HasColor (color : UInt32) (b : Bitmap) (p : ℤ × ℤ) : Prop :=
  ∀ i ∈ pixelBytes b p, b.buf i = colorByte color (i%4)

/-- A pixel shows the colour if it was painted or showed it before. -/
theorem hasColor_painted_iff (color : UInt32) (S : Set (ℤ × ℤ)) (b b' : Bitmap)
    (h : Painted color S b b') (hS : ∀ p ∈ S, InLine b p) (q : ℤ × ℤ) (hq : InLine b q) :
    HasColor color b' q ↔ q ∈ S ∨ HasColor color b q := by
  unfold HasColor
  rw [painted_bytes color S b b' h q]
  constructor
  · intro hc
    by_cases hqS : q ∈ S
    · exact Or.inl hqS
    · exact Or.inr (fun i hi => (painted_others color S b b' h hS q hq hqS i hi) ▸ hc i hi)
  · intro hc i hi
    by_cases hqS : q ∈ S
    · exact h.inside q hqS i hi
    · rw [painted_others color S b b' h hS q hq hqS i hi]
      exact hc.resolve_left hqS i hi

theorem store_paints (color : UInt32) (b : Bitmap) (p : ℤ × ℤ) :
    Painted color {p} b (store b (offset b.pixelsPerLine p) color) := by
  have hmod := offset_mod b.pixelsPerLine p
  refine ⟨rfl,?_,?_⟩
  · rintro q hq i hi
    rw [Set.mem_singleton_iff.mp hq] at hi
    obtain ⟨h1,h2⟩ := hi
    have hk : i-offset b.pixelsPerLine p = i%4 := by omega
    simp only [store, h1, h2, and_self, if_true, hk]
  · intro i hi
    have hnot : ¬ (offset b.pixelsPerLine p ≤ i ∧ i < offset b.pixelsPerLine p+4) :=
      fun h => hi p rfl h
    simp only [store, hnot, if_false]

/-- The computation returns `Ok` and paints the set. -/
def Paints (color : UInt32) (S : Set (ℤ × ℤ)) (x : Draw Unit) (b : Bitmap) : Prop :=
  ∃ b', x b = .ok (.ok (),b') ∧ Painted color S b b'

/-- Only the members of the set matter. -/
theorem paints_congr (color : UInt32) (S T : Set (ℤ × ℤ)) (x : Draw Unit) (b : Bitmap)
    (h : Paints color S x b) (hST : ∀ p, p ∈ S ↔ p ∈ T) : Paints color T x b := by
  rwa [← Set.ext hST]

section Point
variable (color : UInt32) (b : Bitmap) (hb : BufferOk b) (x y : ℤ) (h : InRange b x y)
include hb h

theorem writePixel_paints :
    Paints color {(x,y)} (writePixel (offset b.pixelsPerLine (x,y)) color) b :=
  ⟨_,if_pos (pixelBytes_inside b hb x y h),store_paints color b (x,y)⟩

theorem unchecked_paints : Paints color {(x,y)} (uncheckedDrawPoint color x y) b := by
  obtain ⟨b',hrun,hp⟩ := writePixel_paints color b hb x y h
  refine ⟨b',?_,hp⟩
  rw [uncheckedDrawPoint, run_bind _ _ _ _ _ (observe_ok _ b _ (unchecked_pixel b hb x y h))]
  exact hrun

theorem drawPoint_paints : Paints color {(x,y)} (drawPoint color x y) b := by
  obtain ⟨b',hrun,hp⟩ := writePixel_paints color b hb x y h
  have hpixel : pixelAtMut b x y = .ok (some (offset b.pixelsPerLine (x,y))) := by
    rw [pixelAtMut, if_pos ((inRange_iff b x y).mpr h), unchecked_pixel b hb x y h]
    rfl
  refine ⟨b',?_,hp⟩
  rw [drawPoint, run_bind _ _ _ _ _ (observe_ok _ b _ hpixel)]
  exact hrun

end Point

theorem drawPoint_rejects (color : UInt32) (b : Bitmap) (x y : ℤ) (h : ¬ InRange b x y) :
    drawPoint color x y b = .ok (.error "Out of Range",b) := by
  have hpixel : pixelAtMut b x y = .ok none :=
    if_neg (fun hin => h ((inRange_iff b x y).mp hin))
  rw [drawPoint, run_bind _ _ _ _ _ (observe_ok _ b _ hpixel)]
  rfl

/-- A loop paints what its turns paint, one after the other. -/
theorem forM_paints {α : Type} (color : UInt32) (f : α → Draw Unit) (S : α → Set (ℤ × ℤ))
    (l : List α) (b : Bitmap) (hb : BufferOk b)
    (h : ∀ a ∈ l, ∀ b', BufferOk b' → (∀ x y, InRange b' x y ↔ InRange b x y) →
      Paints color (S a) (f a) b') : Paints color {p | ∃ a ∈ l, p ∈ S a} (l.forM f) b := by
  induction l generalizing b with
  | nil =>
    have hset : {p | ∃ a ∈ ([] : List α), p ∈ S a} = ∅ := by simp
    rw [hset]
    exact ⟨b,rfl,painted_empty color b⟩
  | cons a l ih =>
    obtain ⟨b1,h1,hp1⟩ := h a (by simp) b hb (fun _ _ => Iff.rfl)
    have hb1 := painted_bufferOk color _ b b1 hp1 hb
    have hr1 := painted_inRange color _ b b1 hp1
    obtain ⟨b2,h2,hp2⟩ := ih b1 hb1 (fun c hc b' hb' hr' => h c (by simp [hc]) b' hb'
      (fun x y => (hr' x y).trans (hr1 x y)))
    have hset : {p | ∃ c ∈ a::l, p ∈ S c} = S a ∪ {p | ∃ c ∈ l, p ∈ S c} := by
      ext p
      simp
    rw [hset]
    exact ⟨b2,(run_bind (f a) (fun _ => l.forM f) b b1 () h1).trans h2,
      painted_union color _ _ b b1 b2 hp1 hp2⟩

/-- A loop over a range. -/
theorem range_paints (color : UInt32) (f : ℤ → Draw Unit) (S : ℤ → Set (ℤ × ℤ)) (start stop : ℤ)
    (b : Bitmap) (hb : BufferOk b)
    (h : ∀ k, start ≤ k → k < stop → ∀ b', BufferOk b' →
      (∀ x y, InRange b' x y ↔ InRange b x y) → Paints color (S k) (f k) b') :
    Paints color {p | ∃ k, (start ≤ k ∧ k < stop) ∧ p ∈ S k} ((rangeI64 start stop).forM f) b := by
  apply paints_congr color {p | ∃ k ∈ rangeI64 start stop, p ∈ S k} _ _ b
  · apply forM_paints color f S _ b hb
    intro k hk b' hb' hr
    obtain ⟨h0,h1⟩ := (mem_rangeI64 start stop k).mp hk
    exact h k h0 h1 b' hb' hr
  · intro p
    simp only [Set.mem_ofPred_eq, mem_rangeI64]

end Wasabi.Graphics.Painting
