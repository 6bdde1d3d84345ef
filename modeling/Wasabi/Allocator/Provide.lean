import Wasabi.Support.LinkedList
import Wasabi.Support.Tiling
import Wasabi.Allocator.SizeRounding

/-!
# What one call of `provide` does

A header in the list shows a block. Cutting takes the request from the end of
a free block and leaves the rest in front of it; alignment may leave a padding
block behind it. Granularity is the reason the padding has room for its own
header: every end and every length is a multiple of the header size.
-/

set_option autoImplicit false

namespace Wasabi.Allocator.Provide
open Wasabi.Rust Wasabi.WordBits Wasabi.ObjectMemory
open Wasabi.Allocator.FirstFit Wasabi.Allocator.SizeRounding

structure Block where
  addr : ℕ
  size : ℕ
  isAllocated : Bool
  deriving DecidableEq, Repr

def Block.stop (b : Block) : ℕ := b.addr+b.size

def ShowsBlock (h : Header) (b : Block) : Prop := h.size = b.size ∧ h.isAllocated = b.isAllocated

abbrev Segment (m : HeaderMemory) : Option ℕ → List Block → Option ℕ → Prop :=
  LinkedList.Segment Header.nextHeader Block.addr ShowsBlock (load headerSize m)

/-- The list of headers from `first` shows exactly the blocks `bs`. -/
abbrev Chain (m : HeaderMemory) (first : Option ℕ) (bs : List Block) : Prop :=
  LinkedList.Chain Header.nextHeader Block.addr ShowsBlock (load headerSize m) first bs

/-- The rounded size and alignment of a request. -/
def requestSize (size : ℕ) : ℕ := max (2^bitLength (size-1)) headerSize

def requestAlign (align : ℕ) : ℕ := max align headerSize

/-- The user address cut from the end of a block. -/
def placed (b : Block) (s a : ℕ) : ℕ := alignDown a (b.stop-s)

/-- The block behind a request of size `s` at `p`, if there is room left. -/
def padding (b : Block) (s p : ℕ) : List Block :=
  if p+s = b.stop then [] else [⟨p+s,b.stop-(p+s),false⟩]

/-- The request of size `s` at `p`, with its own header in front. -/
def granted (s p : ℕ) : Block := ⟨p-headerSize,s+headerSize,true⟩

def remnant (b : Block) (p : ℕ) : Block := ⟨b.addr,p-headerSize-b.addr,false⟩

def cut (b : Block) (s a : ℕ) : List Block :=
  remnant b (placed b s a) :: granted s (placed b s a) :: padding b s (placed b s a)

def Admits (b : Block) (s a : ℕ) : Prop := b.isAllocated = false ∧ s+headerSize*2+a ≤ b.size

instance (b : Block) (s a : ℕ) : Decidable (Admits b s a) := inferInstanceAs (Decidable (_ ∧ _))

/-- Granularity of a block, and its range does not wrap. -/
structure Granular (b : Block) : Prop where
  addr : headerSize ∣ b.addr
  size : headerSize ∣ b.size
  room : headerSize ≤ b.size
  bound : b.stop < 2^64

theorem layout_size_le (layout : Layout) : layout.size ≤ 2^63 := by
  have hf := layout.fits
  unfold isizeMax at hf
  omega

/-- What a valid layout of non-zero size asks for after rounding. -/
structure Request (s a : ℕ) : Prop where
  sizePow : ∃ i, s = 2^i
  alignPow : ∃ j ≤ 64, a = 2^j
  size : headerSize ∣ s
  align : headerSize ∣ a
  bound : s+headerSize*2+a < 2^64

theorem layout_request (layout : Layout) (h0 : 0 < layout.size) :
    Request (requestSize layout.size) (requestAlign layout.align) := by
  obtain ⟨k,hk⟩ := layout.powerOfTwo
  have hf := layout.fits
  unfold isizeMax at hf
  have hk63 : k < 63 := by
    by_contra hge
    have hp : 2^63 ≤ 2^k := Nat.pow_le_pow_right (by decide) (not_lt.mp hge)
    omega
  have hk62 : 2^k ≤ 2^62 := Nat.pow_le_pow_right (by decide) (by omega)
  have hb : bitLength (layout.size-1) ≤ 63 := by
    rw [bitLength_le_iff]
    omega
  have hb63 : 2^bitLength (layout.size-1) ≤ 2^63 := Nat.pow_le_pow_right (by decide) hb
  have h5 : headerSize = 2^5 := rfl
  have hs : requestSize layout.size = 2^max (bitLength (layout.size-1)) 5 := by
    rw [requestSize, h5, max_two_pow]
  have ha : requestAlign layout.align = 2^max k 5 := by
    rw [requestAlign, h5, hk, max_two_pow]
  refine ⟨⟨_,hs⟩,⟨max k 5,by omega,ha⟩,?_,?_,?_⟩
  · rw [requestSize, h5]
    exact two_pow_dvd_max _ _
  · rw [requestAlign, h5, hk]
    exact two_pow_dvd_max _ _
  · rw [requestSize, requestAlign, h5, hk]
    omega

/-- Where the pieces of a cut lie. -/
structure CutAt (b : Block) (s a p : ℕ) : Prop where
  aligned : a ∣ p
  grain : headerSize ∣ p
  front : b.addr+headerSize*3 ≤ p
  back : p+s ≤ b.stop
  slack : b.stop < p+s+a
  rest : headerSize ∣ b.stop-(p+s)

theorem placed_cutAt (b : Block) (s a : ℕ) (hb : Granular b) (hr : Request s a)
    (hc : Admits b s a) : CutAt b s a (placed b s a) := by
  obtain ⟨j,-,hj⟩ := hr.alignPow
  have hapos : 0 < a := by rw [hj]; positivity
  have hle := alignDown_le a (b.stop-s)
  have hlt := alignDown_lt a (b.stop-s) hapos
  have hd := alignDown_dvd a (b.stop-s)
  have hg := hr.align.trans hd
  have hsz := hc.2
  have h1 := hb.addr
  have h2 := hb.size
  have h3 := hr.size
  have hH : headerSize = 32 := rfl
  have hst : b.stop = b.addr+b.size := rfl
  rw [hH] at h1 h2 h3 hg hsz
  unfold placed
  refine ⟨hd,?_,?_,?_,?_,?_⟩ <;> rw [hH] at * <;> omega

theorem readHeader_ok (m : HeaderMemory) (addr : ℕ) (h : Header)
    (hl : load headerSize m addr = some h) : readHeader m addr = .ok h := by
  rw [readHeader, hl, deref_some]

@[simp] theorem load_writeHeader (m : HeaderMemory) (addr : ℕ) (h : Header) :
    load headerSize (writeHeader m addr h) addr = some h :=
  load_store_same headerSize (by decide) m addr h

theorem load_writeHeader_other (m : HeaderMemory) (addr other : ℕ) (h : Header)
    (hd : other+headerSize ≤ addr ∨ addr+headerSize ≤ other) :
    load headerSize (writeHeader m addr h) other = load headerSize m other :=
  load_store_disjoint headerSize (by decide) m addr other h hd

theorem writeHeader_outside (m : HeaderMemory) (addr x : ℕ) (h : Header)
    (hx : x < addr ∨ addr+headerSize ≤ x) : writeHeader m addr h x = m x :=
  store_outside headerSize addr h m x hx

theorem canProvide_ok (h : Header) (s a : ℕ) (hb : s+headerSize*2+a < 2^64) :
    canProvide h s a = .ok (decide (s+headerSize*2+a ≤ h.size)) := by
  rw [canProvide, checkedAdd_ok _ _ (by omega), ok_bind, checkedAdd_ok _ _ (by omega)]
  rfl

/-- A request that is not admitted changes nothing. -/
theorem provide_skip (m : HeaderMemory) (b : Block) (h : Header) (size align : ℕ)
    (hr : Request (requestSize size) (requestAlign align))
    (hround : roundUpToNearestPow2 size = .ok (2^bitLength (size-1)))
    (hl : load headerSize m b.addr = some h) (hs : ShowsBlock h b)
    (hn : ¬ Admits b (requestSize size) (requestAlign align)) :
    provide m b.addr size align = .ok (m,none) := by
  have hcan := canProvide_ok h _ _ hr.bound
  unfold Admits at hn
  rw [← hs.1,← hs.2] at hn
  unfold requestSize requestAlign at hn hcan
  simp only [provide, hround, readHeader_ok m _ h hl, ok_bind]
  cases ha : h.isAllocated with
  | true => rfl
  | false =>
    rw [hcan, decide_eq_false (fun hle => hn ⟨ha,hle⟩)]
    rfl

theorem placed_mask (b : Block) (s a : ℕ) (hr : Request s a) (hb : b.stop < 2^64) :
    (b.stop-s) &&& complement 64 (a-1) = placed b s a := by
  obtain ⟨j,hj,rfl⟩ := hr.alignPow
  exact and_complement_mask 64 j _ hj (lt_of_le_of_lt (Nat.sub_le _ _) hb)

/-- The header of the request is written inside the block and takes its link. -/
theorem placeAllocated_ok (m : HeaderMemory) (b : Block) (h : Header) (s a p : ℕ)
    (hl : load headerSize m b.addr = some h) (hs : ShowsBlock h b)
    (hb : b.addr+b.size < 2^64) (hfront : b.addr+headerSize*3 ≤ p) (hback : p+s ≤ b.addr+b.size)
    (hmask : (b.addr+b.size-s) &&& complement 64 (a-1) = p) :
    ∃ m', placeAllocated m b.addr s a = .ok (m',p,s+headerSize) ∧
      load headerSize m' b.addr = some {h with nextHeader := none} ∧
      load headerSize m' (p-headerSize) = some ⟨h.nextHeader,s+headerSize,true,0⟩ ∧
      ∀ x, x < b.addr ∨ b.addr+b.size ≤ x → m' x = m x := by
  have hH : headerSize = 32 := rfl
  simp (disch := omega) only [placeAllocated, endAddr, readHeader, hl, hs.1, deref_some, ok_bind,
    checkedAdd_ok, checkedSub_ok, hmask, setIsAllocated, setSize, setNextHeader, takeNextHeader,
    newFromAddr, load_writeHeader, load_writeHeader_other, pure_eq, zero_add]
  refine ⟨_,rfl,?_,?_,?_⟩
  · simp (disch := omega) only [load_writeHeader_other, load_writeHeader]
  · exact load_writeHeader _ _ _
  · intro x hx
    simp (disch := omega) only [writeHeader_outside]

theorem placePadding_ok (m : HeaderMemory) (b : Block) (h : Header) (next : Option ℕ) (s p : ℕ)
    (hself : load headerSize m b.addr = some h) (hs : h.size = b.size)
    (hreq : load headerSize m (p-headerSize) = some ⟨next,s+headerSize,true,0⟩)
    (hb : b.stop < 2^64) (hfront : b.addr+headerSize*3 ≤ p) (hback : p+s ≤ b.stop)
    (hrest : headerSize ∣ b.stop-(p+s)) :
    ∃ m', placePadding m b.addr (p-headerSize) (s+headerSize) =
        .ok (m',b.stop-(p-headerSize)) ∧
      load headerSize m' b.addr = some h ∧
      Segment m' (some (p-headerSize)) (granted s p :: padding b s p) next ∧
      ∀ x, x < b.addr ∨ b.stop ≤ x → m' x = m x := by
  have hH : headerSize = 32 := rfl
  have hstop : b.stop = b.addr+b.size := rfl
  have hend : p-headerSize+(s+headerSize) = p+s := by omega
  by_cases hpad : p+s = b.stop
  · refine ⟨m,?_,hself,?_,fun _ _ => rfl⟩
    · simp (disch := omega) only [placePadding, endAddr, readHeader, hself, hreq, deref_some,
        ok_bind, hs, checkedAdd_ok, hend, hpad, ← hstop, ne_eq, not_true_eq_false, if_false,
        pure_eq]
      rw [show s+headerSize = b.stop-(p-headerSize) by omega]
    · rw [padding, if_pos hpad]
      exact ⟨rfl,_,hreq,⟨rfl,rfl⟩,rfl⟩
  · have hroom : p+s+headerSize ≤ b.stop := by
      have hle := Nat.le_of_dvd (by omega) hrest
      omega
    simp (disch := omega) only [placePadding, endAddr, readHeader, hself, hreq, deref_some, ok_bind,
      hs, checkedAdd_ok, checkedSub_ok, hend, ← hstop, hpad, ne_eq, not_false_eq_true, if_true,
      setIsAllocated, setSize, setNextHeader, takeNextHeader, newFromAddr, load_writeHeader,
      load_writeHeader_other, pure_eq]
    rw [show s+headerSize+(b.stop-(p+s)) = b.stop-(p-headerSize) by omega]
    refine ⟨_,rfl,?_,?_,?_⟩
    · simp (disch := omega) only [load_writeHeader_other, hself]
    · rw [padding, if_neg hpad]
      refine ⟨rfl,_,load_writeHeader _ _ _,⟨rfl,rfl⟩,rfl,?_⟩
      refine ⟨⟨next,b.stop-(p+s),false,0⟩,?_,⟨rfl,rfl⟩,rfl⟩
      simp (disch := omega) only [load_writeHeader_other, load_writeHeader]
    · intro x hx
      simp (disch := omega) only [writeHeader_outside]

theorem shrink_ok (m : HeaderMemory) (addr request used : ℕ) (h : Header)
    (hself : load headerSize m addr = some h) (hn : h.nextHeader = none)
    (hroom : used+headerSize < h.size) (hb : h.size < 2^64) :
    shrink m addr request used = .ok (writeHeader (writeHeader m addr {h with size := h.size-used})
      addr {h with nextHeader := some request, size := h.size-used}) := by
  have hH : headerSize = 32 := rfl
  simp (disch := omega) only [shrink, readHeader, hself, deref_some, ok_bind, checkedAdd_ok,
    assert_ok, checkedSub_ok, setSize, setNextHeader, load_writeHeader, pure_eq, hn,
    gt_iff_lt]

/-- An admitted request cuts the block. Only bytes of the block change. -/
theorem provide_cut (m : HeaderMemory) (b : Block) (h : Header) (size align : ℕ)
    (hr : Request (requestSize size) (requestAlign align))
    (hround : roundUpToNearestPow2 size = .ok (2^bitLength (size-1)))
    (hl : load headerSize m b.addr = some h) (hs : ShowsBlock h b) (hg : Granular b)
    (ha : Admits b (requestSize size) (requestAlign align)) :
    ∃ m', provide m b.addr size align =
        .ok (m',some (placed b (requestSize size) (requestAlign align))) ∧
      Segment m' (some b.addr) (cut b (requestSize size) (requestAlign align)) h.nextHeader ∧
      ∀ x, x < b.addr ∨ b.stop ≤ x → m' x = m x := by
  have hcan := canProvide_ok h _ _ hr.bound
  have hfree : h.isAllocated = false := hs.2.trans ha.1
  rw [hs.1, decide_eq_true ha.2] at hcan
  obtain ⟨-,-,hfront,hback,-,hrest⟩ := placed_cutAt b _ _ hg hr ha
  have hmask := placed_mask b _ _ hr hg.bound
  simp only [provide, hround, readHeader_ok m _ h hl, ok_bind]
  rw [← requestSize, ← requestAlign, hfree, hcan, cut]
  generalize placed b (requestSize size) (requestAlign align) = p at *
  generalize requestSize size = s at *
  have hH : headerSize = 32 := rfl
  have hstop : b.stop = b.addr+b.size := rfl
  have hbound := hg.bound
  obtain ⟨m1,h1,hself1,hreq1,hout1⟩ :=
    placeAllocated_ok m b h s (requestAlign align) p hl hs hg.bound hfront hback hmask
  obtain ⟨m2,h2,hself2,hseg2,hout2⟩ :=
    placePadding_ok m1 b _ h.nextHeader s p hself1 hs.1 hreq1 hg.bound hfront hback hrest
  have h3 := shrink_ok m2 b.addr (p-headerSize) (b.stop-(p-headerSize)) _ hself2 rfl
    (by simp only [hs.1]; omega) (by simp only [hs.1]; omega)
  simp only [Bool.false_eq_true, if_false, ok_bind, Bool.not_true, h1, h2, h3, pure_eq]
  refine ⟨_,rfl,⟨rfl,_,load_writeHeader _ _ _,⟨?_,hfree⟩,?_⟩,?_⟩
  · simp only [remnant, hs.1]
    omega
  · apply LinkedList.segment_congr _ _ _ _ _ _ _ _ _ hseg2
    intro c hc
    have hlow : b.addr+headerSize ≤ c.addr := by
      rcases List.mem_cons.mp hc with rfl | hc
      · simp only [granted]
        omega
      · simp only [padding] at hc
        split_ifs at hc
        · cases hc
        · rw [List.mem_singleton.mp hc]
          simp only
          omega
    simp (disch := omega) only [load_writeHeader_other]
  · intro x hx
    rw [writeHeader_outside _ _ _ _ (by omega), writeHeader_outside _ _ _ _ (by omega),
      hout2 x hx, hout1 x hx]

end Wasabi.Allocator.Provide
