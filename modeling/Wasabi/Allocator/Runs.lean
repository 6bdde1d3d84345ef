import Wasabi.Allocator.Registration

/-!
# Runs of a client against the allocator

A client allocates any layout, frees any of its live pointers and stores any
byte into its own live ranges, in any order. The invariant names the list of
blocks that the headers show: it tiles the registered regions, and every live
pointer belongs to an allocated block of the list.
-/

set_option autoImplicit false

namespace Wasabi.Allocator.Runs
open Wasabi.Rust Wasabi.WordBits Wasabi.ObjectMemory Wasabi.Tiling Wasabi.Uefi.MemoryMap
open Wasabi.Allocator.FirstFit Wasabi.Allocator.Provide Wasabi.Allocator.BlockList
open Wasabi.Allocator.Registration

structure Allocation where
  ptr : ℕ
  layout : Layout

/-- `granted` is the history of all non-null results, freed or not. -/
structure Client where
  heap : Heap
  live : List Allocation
  granted : List Allocation

inductive Op where
  | alloc (layout : Layout)
  | dealloc (index : ℕ)
  | poke (index offset : ℕ) (byte : UInt8)

/-- Freeing and storing address the live allocations by position, so that
every operation is one the client may perform. -/
def step (fuel : ℕ) (s : Client) : Op → Eval Client
  | .alloc layout => do
    let (heap,p) ← allocWithOptions fuel s.heap layout
    if p = 0 then pure {s with heap := heap}
    else pure ⟨heap,⟨p,layout⟩::s.live,⟨p,layout⟩::s.granted⟩
  | .dealloc index =>
    match s.live[index]? with
    | none => pure s
    | some a => do
      let heap ← dealloc s.heap a.ptr
      pure {s with heap := heap, live := s.live.eraseIdx index}
  | .poke index offset byte =>
    match s.live[index]? with
    | none => pure s
    | some a =>
      if offset < a.layout.size then
        pure {s with heap := {s.heap with memory := poke (a.ptr+offset) byte s.heap.memory}}
      else pure s

def runFrom (fuel : ℕ) (s : Client) (ops : List Op) : Eval Client := ops.foldlM (step fuel) s

def boot (fuel : ℕ) (map : MemoryMapHolder) (memory : HeaderMemory) : Eval Client := do
  let heap ← initWithMmap fuel ⟨memory,none⟩ map
  pure ⟨heap,[],[]⟩

/-- A run from the initialisation on arbitrary memory contents. -/
def run (fuel : ℕ) (map : MemoryMapHolder) (memory : HeaderMemory) (ops : List Op) :
    Eval Client := do
  let s ← boot fuel map memory
  runFrom fuel s ops

/-- The block of the list that belongs to an allocation. -/
def blockOf (a : Allocation) : Block := granted (requestSize a.layout.size) a.ptr

/-- The allocation that cutting block `b` for a layout gives. -/
def grantFrom (b : Block) (layout : Layout) : Allocation :=
  ⟨placed b (requestSize layout.size) (requestAlign layout.align),layout⟩

def cutFor (b : Block) (layout : Layout) : List Block :=
  cut b (requestSize layout.size) (requestAlign layout.align)

def userBytes (a : Allocation) : Set ℕ := Set.Ico a.ptr (a.ptr+a.layout.size)

def headerBytes (b : Block) : Set ℕ := Set.Ico b.addr (b.addr+headerSize)

theorem free_ne_blockOf (b : Block) (hfree : b.isAllocated = false) (a : Allocation) :
    b ≠ blockOf a := by
  rintro rfl
  cases hfree

/-- A result is aligned, non-empty and inside one region, behind its header. -/
structure GrantOk (rs : List (ℕ × ℕ)) (a : Allocation) : Prop where
  aligned : a.layout.align ∣ a.ptr
  behind : headerSize ≤ a.ptr
  nonempty : 0 < a.layout.size
  inside : ∃ r ∈ rs, r.1 ≤ a.ptr ∧ a.ptr+a.layout.size ≤ r.2

/-- No block is below 64 bytes except padding; these are the others. -/
def large (b : Block) : Bool := headerSize*2 ≤ b.size

structure Inv (rs : List (ℕ × ℕ)) (s : Client) (bs : List Block) : Prop where
  chain : Chain s.heap.memory s.heap.firstHeader bs
  tiles : TilesAll Block.addr Block.stop rs bs
  granular : ∀ b ∈ bs, Granular b
  owned : ∀ a ∈ s.live, blockOf a ∈ bs
  recorded : ∀ a ∈ s.live, a ∈ s.granted
  sound : ∀ a ∈ s.granted, GrantOk rs a
  distinct : (s.live.map Allocation.ptr).Nodup
  count : rs.length+s.granted.length ≤ bs.countP large

theorem requestSize_ge (n : ℕ) (h : 0 < n) : n ≤ requestSize n :=
  le_trans (pow_bitLength_bounds n h).1 (Nat.le_max_left _ _)

theorem layout_align_dvd (layout : Layout) : layout.align ∣ requestAlign layout.align := by
  obtain ⟨k,hk⟩ := layout.powerOfTwo
  rw [hk, requestAlign, Nat.max_comm]
  exact two_pow_dvd_max k 5

section Cut
variable (b : Block) (s a : ℕ) (hg : Granular b) (hr : Request s a) (ha : Admits b s a)
include hg hr ha

theorem cut_tiles : Tiles Block.addr Block.stop b.addr (cut b s a) b.stop := by
  obtain ⟨-,-,hfront,hback,-,-⟩ := placed_cutAt b s a hg hr ha
  have hH : headerSize = 32 := rfl
  simp only [cut, padding, remnant, granted]
  refine ⟨rfl,?_,?_,?_,?_⟩
  · simp only [Block.stop]
    omega
  · simp only [Block.stop]
    omega
  · simp only [Block.stop]
    omega
  · split_ifs with h
    · change placed b s a-headerSize+(s+headerSize) = _
      omega
    · refine ⟨?_,?_,?_⟩
      · simp only [Block.stop]
        omega
      · simp only [Block.stop] at h hback ⊢
        omega
      · change placed b s a+s+(b.stop-(placed b s a+s)) = b.stop
        omega

theorem cut_granular : ∀ c ∈ cut b s a, Granular c := by
  obtain ⟨-,hgrain,hfront,hback,-,hrest⟩ := placed_cutAt b s a hg hr ha
  have hH : headerSize = 32 := rfl
  have hbound := hg.bound
  have h1 := hg.addr
  have h2 := hr.size
  rw [hH] at hgrain hfront hrest h1 h2
  intro c hc
  rw [cut, remnant, granted] at hc
  generalize placed b s a = p at hgrain hfront hback hrest hc
  rcases List.mem_cons.mp hc with rfl | hc
  · refine ⟨h1,?_,?_,?_⟩
    · change headerSize ∣ p-headerSize-b.addr
      rw [hH]
      omega
    · change headerSize ≤ p-headerSize-b.addr
      omega
    · change b.addr+(p-headerSize-b.addr) < 2^64
      omega
  rcases List.mem_cons.mp hc with rfl | hc
  · refine ⟨?_,?_,Nat.le_add_left _ _,?_⟩
    · change headerSize ∣ p-headerSize
      rw [hH]
      omega
    · change headerSize ∣ s+headerSize
      rw [hH]
      omega
    · change p-headerSize+(s+headerSize) < 2^64
      omega
  · rw [padding] at hc
    split_ifs at hc with h
    · cases hc
    · rw [List.mem_singleton.mp hc]
      refine ⟨?_,hrest,?_,?_⟩
      · change headerSize ∣ p+s
        rw [hH]
        omega
      · change headerSize ≤ b.stop-(p+s)
        omega
      · change p+s+(b.stop-(p+s)) < 2^64
        omega

/-- The remnant and the request are both large, so a cut adds a large block. -/
theorem cut_count : 2 ≤ (cut b s a).countP large := by
  obtain ⟨-,-,hfront,-,-,-⟩ := placed_cutAt b s a hg hr ha
  obtain ⟨⟨i,rfl⟩,-,hs,-,-⟩ := hr
  have hH : headerSize = 32 := rfl
  have hpos : 0 < 2^i := by positivity
  have hle := Nat.le_of_dvd hpos hs
  have h1 : large (remnant b (placed b (2^i) a)) = true := by
    apply decide_eq_true
    change headerSize*2 ≤ placed b (2^i) a-headerSize-b.addr
    omega
  have h2 : large (granted (2^i) (placed b (2^i) a)) = true := by
    apply decide_eq_true
    change headerSize*2 ≤ 2^i+headerSize
    omega
  rw [cut, List.countP_cons_of_pos h1, List.countP_cons_of_pos h2]
  omega

end Cut

section Invariant
variable (rs : List (ℕ × ℕ)) (hrs : rs.Pairwise Apart) (s : Client) (bs : List Block)
  (hi : Inv rs s bs)
include hrs hi

theorem inv_separate : Separate bs := tilesAll_pairwise Block.addr Block.stop rs bs hi.tiles hrs

/-- A block other than its own keeps a header's distance to a live range. -/
theorem inv_apart (a : Allocation) (ha : a ∈ s.live) (c : Block) (hc : c ∈ bs)
    (hne : c ≠ blockOf a) : c.stop+headerSize ≤ a.ptr ∨ a.ptr+a.layout.size ≤ c.addr := by
  have hg := hi.sound a (hi.recorded a ha)
  have hb := hg.behind
  have hn := requestSize_ge a.layout.size hg.nonempty
  rcases apart_of_ne Block.addr Block.stop bs (inv_separate rs hrs s bs hi) c (blockOf a) hc
    (hi.owned a ha) hne with h | h
  · left
    change c.stop ≤ a.ptr-headerSize at h
    omega
  · right
    change a.ptr-headerSize+(requestSize a.layout.size+headerSize) ≤ c.addr at h
    omega

theorem inv_header (a : Allocation) (ha : a ∈ s.live) (c : Block) (hc : c ∈ bs) (x : ℕ)
    (hx : x ∈ userBytes a) : x < c.addr ∨ c.addr+headerSize ≤ x := by
  obtain ⟨hx1,hx2⟩ := hx
  by_cases heq : c = blockOf a
  · subst heq
    have hb := (hi.sound a (hi.recorded a ha)).behind
    right
    change a.ptr-headerSize+headerSize ≤ x
    omega
  · have hroom := (hi.granular c hc).room
    have hcs : c.stop = c.addr+c.size := rfl
    rcases inv_apart rs hrs s bs hi a ha c hc heq with h | h
    · omega
    · omega

theorem inv_disjoint (a b : Allocation) (ha : a ∈ s.live) (hb : b ∈ s.live) (hne : a.ptr ≠ b.ptr) :
    Disjoint (userBytes a) (userBytes b) := by
  have hga := hi.sound a (hi.recorded a ha)
  have hgb := hi.sound b (hi.recorded b hb)
  have h1 := hga.behind
  have h2 := hgb.behind
  have hnb := requestSize_ge b.layout.size hgb.nonempty
  have hblocks : blockOf b ≠ blockOf a := by
    intro he
    have haddr : b.ptr-headerSize = a.ptr-headerSize := congrArg Block.addr he
    omega
  rw [Set.disjoint_left]
  rintro x ⟨hx1,hx2⟩ ⟨hx3,hx4⟩
  rcases inv_apart rs hrs s bs hi a ha (blockOf b) (hi.owned b hb) hblocks with h | h
  · change b.ptr-headerSize+(requestSize b.layout.size+headerSize)+headerSize ≤ a.ptr at h
    omega
  · change a.ptr+a.layout.size ≤ b.ptr-headerSize at h
    omega

end Invariant

theorem erased_ptr (live : List Allocation) (hd : (live.map Allocation.ptr).Nodup) (index : ℕ)
    (a : Allocation) (ha : live[index]? = some a) (c : Allocation) (hc : c ∈ live.eraseIdx index) :
    c.ptr ≠ a.ptr := by
  obtain ⟨i,hne,hci⟩ := List.mem_eraseIdx_iff_getElem?.mp hc
  intro heq
  have hlen : i < (live.map Allocation.ptr).length := by
    rw [List.length_map]
    exact (List.getElem?_eq_some_iff.mp hci).1
  have hsame : (live.map Allocation.ptr)[i]? = (live.map Allocation.ptr)[index]? := by
    rw [List.getElem?_map, List.getElem?_map, hci, ha, Option.map_some, Option.map_some, heq]
  exact hne ((List.getElem?_inj hlen hd).mp hsame)

/-- The list holds a block that passes the admission test for the layout. -/
def Room (bs : List Block) (layout : Layout) : Prop :=
  ∃ b ∈ bs, Admits b (requestSize layout.size) (requestAlign layout.align)

/-- Without room, or for a layout of size zero, the null pointer is returned. -/
theorem alloc_full (rs : List (ℕ × ℕ)) (s : Client) (bs : List Block) (hi : Inv rs s bs) (fuel : ℕ)
    (hf : bs.length ≤ fuel) (layout : Layout) (h : ¬ (0 < layout.size ∧ Room bs layout)) :
    allocWithOptions fuel s.heap layout = .ok (s.heap,0) := by
  rw [allocWithOptions]
  rcases Nat.eq_zero_or_pos layout.size with h0 | hpos
  · rw [alloc_zero layout _ bs fuel _ h0 hf hi.chain]
    rfl
  · have hno : ∀ b ∈ bs, ¬ Admits b (requestSize layout.size) (requestAlign layout.align) :=
      fun b hb ha => h ⟨hpos,b,hb,ha⟩
    rw [alloc_refused layout _ bs fuel _ hpos hf hi.chain hno]
    rfl

/-- What an operation does to the list of blocks, and that an operation of the
allocator leaves the bytes of every live range alone. -/
structure Advance (rs : List (ℕ × ℕ)) (s s' : Client) (op : Op) (bs bs' : List Block) : Prop where
  inv : Inv rs s' bs'
  refines : Refines Block.addr Block.stop bs' bs
  length : bs'.length ≤ bs.length+2
  kept : (∀ i o y, op ≠ .poke i o y) → ∀ a ∈ s.live, ∀ x ∈ userBytes a,
    s'.heap.memory x = s.heap.memory x

theorem advance_idle (rs : List (ℕ × ℕ)) (s : Client) (op : Op) (bs : List Block)
    (hi : Inv rs s bs) : Advance rs s s op bs bs :=
  ⟨hi,refines_refl _ _ bs,by omega,fun _ _ _ _ _ => rfl⟩

section Grant
variable (rs : List (ℕ × ℕ)) (s : Client) (pre post : List Block) (b : Block)
  (hi : Inv rs s (pre++b::post)) (layout : Layout) (h0 : 0 < layout.size)
  (ha : Admits b (requestSize layout.size) (requestAlign layout.align))
include hi h0 ha

theorem grant_tiles : TilesAll Block.addr Block.stop rs (pre++(cutFor b layout++post)) :=
  tilesAll_subst _ _ rs pre _ post b hi.tiles
    (cut_tiles b _ _ (hi.granular b (by simp)) (layout_request layout h0) ha)

theorem grant_granular : ∀ c ∈ pre++(cutFor b layout++post), Granular c := by
  intro c hc
  rcases List.mem_append.mp hc with hc | hc
  · exact hi.granular c (by simp [hc])
  rcases List.mem_append.mp hc with hc | hc
  · exact cut_granular b _ _ (hi.granular b (by simp)) (layout_request layout h0) ha c hc
  · exact hi.granular c (by simp [hc])

omit hi h0 ha in
theorem grant_block : blockOf (grantFrom b layout) ∈ pre++(cutFor b layout++post) :=
  List.mem_append_right _ (List.mem_append_left _ (List.mem_cons_of_mem _ List.mem_cons_self))

omit h0 in
theorem grant_owned (a : Allocation) (hal : a ∈ s.live) :
    blockOf a ∈ pre++(cutFor b layout++post) := by
  rcases List.mem_append.mp (hi.owned a hal) with h | h
  · exact List.mem_append_left _ h
  rcases List.mem_cons.mp h with h | h
  · exact absurd h.symm (free_ne_blockOf b ha.1 a)
  · exact List.mem_append_right _ (List.mem_append_right _ h)

theorem grant_sound : GrantOk rs (grantFrom b layout) := by
  obtain ⟨haligned,-,hfront,-,-,-⟩ := placed_cutAt b _ _ (hi.granular b (by simp))
    (layout_request layout h0) ha
  obtain ⟨r,hrm,h1,-,h3⟩ := tilesAll_mem _ _ rs _ (grant_tiles rs s pre post b hi layout h0 ha) _
    (grant_block pre post b layout)
  have hn := requestSize_ge layout.size h0
  change r.1 ≤ (grantFrom b layout).ptr-headerSize at h1
  change (grantFrom b layout).ptr-headerSize+(requestSize layout.size+headerSize) ≤ r.2 at h3
  change b.addr+headerSize*3 ≤ (grantFrom b layout).ptr at hfront
  refine ⟨(layout_align_dvd layout).trans haligned,by omega,h0,r,hrm,by omega,?_⟩
  change (grantFrom b layout).ptr+layout.size ≤ r.2
  omega

theorem grant_count : rs.length+(s.granted.length+1) ≤
    (pre++(cutFor b layout++post)).countP large := by
  have hold := hi.count
  have hcut : 2 ≤ (cutFor b layout).countP large :=
    cut_count b _ _ (hi.granular b (by simp)) (layout_request layout h0) ha
  rw [List.countP_append, List.countP_cons] at hold
  rw [List.countP_append, List.countP_append]
  split_ifs at hold <;> omega

omit hi h0 ha in
theorem grant_length : (pre++(cutFor b layout++post)).length ≤ (pre++b::post).length+2 := by
  simp only [List.length_append, List.length_cons, cutFor, cut, padding]
  split_ifs <;> simp only [List.length_cons, List.length_nil] <;> omega

/-- The state after a request that block `b` admits. -/
theorem alloc_advance (hrs : rs.Pairwise Apart) (m' : HeaderMemory)
    (hc : Chain m' s.heap.firstHeader (pre++(cutFor b layout++post)))
    (hm : ∀ x, x < b.addr ∨ b.stop ≤ x → m' x = s.heap.memory x) :
    Advance rs s
      ⟨{s.heap with memory := m'},grantFrom b layout::s.live,grantFrom b layout::s.granted⟩
      (.alloc layout) (pre++b::post) (pre++(cutFor b layout++post)) := by
  have hg := hi.granular b (by simp)
  have hr := layout_request layout h0
  have hroom := hg.room
  obtain ⟨-,-,hfront,hback,-,-⟩ := placed_cutAt b _ _ hg hr ha
  have hstop : b.stop = b.addr+b.size := rfl
  have hH : headerSize = 32 := rfl
  have hfar : ∀ a ∈ s.live, b.stop+headerSize ≤ a.ptr ∨ a.ptr+a.layout.size ≤ b.addr :=
    fun a hal => inv_apart rs hrs s _ hi a hal b (by simp) (free_ne_blockOf b ha.1 a)
  refine ⟨⟨hc,grant_tiles rs s pre post b hi layout h0 ha,
    grant_granular rs s pre post b hi layout h0 ha,?_,?_,?_,?_,
    grant_count rs s pre post b hi layout h0 ha⟩,?_,grant_length pre post b layout,?_⟩
  · intro a hal
    rcases List.mem_cons.mp hal with rfl | hal
    · exact grant_block pre post b layout
    · exact grant_owned rs s pre post b hi layout ha a hal
  · intro a hal
    rcases List.mem_cons.mp hal with rfl | hal
    · exact List.mem_cons_self
    · exact List.mem_cons_of_mem _ (hi.recorded a hal)
  · intro a hal
    rcases List.mem_cons.mp hal with rfl | hal
    · exact grant_sound rs s pre post b hi layout h0 ha
    · exact hi.sound a hal
  · refine List.nodup_cons.mpr ⟨?_,hi.distinct⟩
    intro hmem
    obtain ⟨a,hal,hap⟩ := List.mem_map.mp hmem
    have hptr : a.ptr = placed b (requestSize layout.size) (requestAlign layout.align) := hap
    have hd := hfar a hal
    omega
  · exact refines_subst _ _ pre _ post b (by omega) (cut_tiles b _ _ hg hr ha)
  · rintro _ a hal x ⟨hx1,hx2⟩
    have hd := hfar a hal
    exact hm x (by omega)

end Grant

section Step
variable (rs : List (ℕ × ℕ)) (hrs : rs.Pairwise Apart) (s : Client) (bs : List Block)
  (hi : Inv rs s bs)
include hrs hi

/-- The first block that admits the request is cut, and the result is not null. -/
theorem alloc_first (fuel : ℕ) (hf : bs.length ≤ fuel) (layout : Layout) (hpos : 0 < layout.size)
    (pre post : List Block) (b : Block) (he : bs = pre++b::post)
    (hn : ∀ c ∈ pre, ¬ Admits c (requestSize layout.size) (requestAlign layout.align))
    (ha : Admits b (requestSize layout.size) (requestAlign layout.align)) :
    ∃ heap', allocWithOptions fuel s.heap layout = .ok (heap',(grantFrom b layout).ptr) ∧
      (grantFrom b layout).ptr ≠ 0 ∧
      Advance rs s ⟨heap',grantFrom b layout::s.live,grantFrom b layout::s.granted⟩
        (.alloc layout) bs (pre++(cutFor b layout++post)) := by
  subst he
  obtain ⟨m',hrun,hchain,hout⟩ := alloc_granted layout _ pre post b fuel _ hpos hf hi.chain
    hi.granular (inv_separate rs hrs s _ hi) hn ha
  have hadv := alloc_advance rs s pre post b hi layout hpos ha hrs m' hchain hout
  have hbe := (hadv.inv.sound _ List.mem_cons_self).behind
  have hH : headerSize = 32 := rfl
  refine ⟨{s.heap with memory := m'},?_,by omega,hadv⟩
  rw [allocWithOptions, hrun]
  rfl

theorem alloc_room (fuel : ℕ) (hf : bs.length ≤ fuel) (layout : Layout) (hpos : 0 < layout.size)
    (hroom : Room bs layout) :
    ∃ heap' pre b post, bs = pre++b::post ∧
      allocWithOptions fuel s.heap layout = .ok (heap',(grantFrom b layout).ptr) ∧
      (grantFrom b layout).ptr ≠ 0 ∧
      Advance rs s ⟨heap',grantFrom b layout::s.live,grantFrom b layout::s.granted⟩
        (.alloc layout) bs (pre++(cutFor b layout++post)) := by
  cases hff : firstFit (requestSize layout.size) (requestAlign layout.align) bs with
  | none =>
    obtain ⟨b,hb,ha⟩ := hroom
    exact absurd ha ((firstFit_none _ _ bs).mp hff b hb)
  | some r =>
    obtain ⟨pre,b,post,he,hpre,hadm,-,-⟩ := (firstFit_some _ _ bs r.1 r.2).mp hff
    obtain ⟨heap',hrun,hne,hadv⟩ := alloc_first rs hrs s bs hi fuel hf layout hpos pre post b he
      hpre hadm
    exact ⟨heap',pre,b,post,he,hrun,hne,hadv⟩

theorem release_advance (index : ℕ) (a : Allocation) (ha : s.live[index]? = some a)
    (m' : HeaderMemory)
    (hc : Chain m' s.heap.firstHeader (bs.map (release (blockOf a).addr)))
    (hm : ∀ x, x < (blockOf a).addr ∨ (blockOf a).addr+headerSize ≤ x →
      m' x = s.heap.memory x) :
    Advance rs s {s with heap := {s.heap with memory := m'}, live := s.live.eraseIdx index}
      (.dealloc index) bs (bs.map (release (blockOf a).addr)) := by
  have hal : a ∈ s.live := List.mem_of_getElem? ha
  have hsub : (s.live.eraseIdx index).Sublist s.live := List.eraseIdx_sublist _ _
  refine ⟨⟨hc,?_,?_,?_,?_,hi.sound,?_,?_⟩,?_,by simp,?_⟩
  · exact tilesAll_map _ _ _ (release_addr _) (release_stop _) rs bs hi.tiles
  · intro c hcm
    obtain ⟨d,hd,rfl⟩ := List.mem_map.mp hcm
    have hg := hi.granular d hd
    exact ⟨by simpa using hg.addr,by simpa using hg.size,by simpa using hg.room,
      by simpa using hg.bound⟩
  · intro c hcm
    have hcl : c ∈ s.live := hsub.subset hcm
    have hptr : c.ptr ≠ a.ptr := erased_ptr s.live hi.distinct index a ha c hcm
    have hbc := (hi.sound c (hi.recorded c hcl)).behind
    have hba := (hi.sound a (hi.recorded a hal)).behind
    have haddr : (blockOf c).addr ≠ (blockOf a).addr := by
      change c.ptr-headerSize ≠ a.ptr-headerSize
      omega
    rw [← release_other (blockOf a).addr (blockOf c) haddr]
    exact List.mem_map_of_mem (hi.owned c hcl)
  · intro c hcm
    exact hi.recorded c (hsub.subset hcm)
  · exact hi.distinct.sublist (hsub.map _)
  · have hlarge : large ∘ release (blockOf a).addr = large := by
      funext c
      simp [large]
    rw [List.countP_map, hlarge]
    exact hi.count
  · exact refines_map _ _ _ (release_addr _) (release_stop _) bs
  · intro _ c hcl x hx
    exact hm x (inv_header rs hrs s bs hi c hcl (blockOf a) (hi.owned a hal) x hx)

/-- Freeing a live pointer releases its block and nothing else. -/
theorem dealloc_live (index : ℕ) (a : Allocation) (ha : s.live[index]? = some a) :
    ∃ heap', dealloc s.heap a.ptr = .ok heap' ∧
      Advance rs s {s with heap := heap', live := s.live.eraseIdx index} (.dealloc index) bs
        (bs.map (release (blockOf a).addr)) := by
  have hal : a ∈ s.live := List.mem_of_getElem? ha
  have hbe := (hi.sound a (hi.recorded a hal)).behind
  obtain ⟨m',hrun,hchain,hout⟩ := dealloc_release s.heap bs (blockOf a) a.ptr (hi.owned a hal)
    (by change a.ptr = a.ptr-headerSize+headerSize; omega) hi.chain hi.granular
    (inv_separate rs hrs s bs hi)
  exact ⟨_,hrun,release_advance rs hrs s bs hi index a ha m' hchain hout⟩

/-- A byte stored into a live range leaves every header alone. -/
theorem poke_advance (index offset : ℕ) (byte : UInt8) (a : Allocation)
    (ha : s.live[index]? = some a) (hlt : offset < a.layout.size) :
    Advance rs s {s with heap := {s.heap with memory := poke (a.ptr+offset) byte s.heap.memory}}
      (.poke index offset byte) bs bs := by
  have hal : a ∈ s.live := List.mem_of_getElem? ha
  refine ⟨⟨?_,hi.tiles,hi.granular,hi.owned,hi.recorded,hi.sound,hi.distinct,hi.count⟩,
    refines_refl _ _ bs,by omega,fun hne => absurd rfl (hne index offset byte)⟩
  apply LinkedList.segment_congr _ _ _ _ _ _ _ _ _ hi.chain
  intro c hc
  exact load_poke_disjoint headerSize (by decide) _ _ _ _
    (inv_header rs hrs s bs hi a hal c hc (a.ptr+offset) ⟨by omega,by omega⟩)

/-- No operation of a client faults, and each keeps the invariant. -/
theorem step_advance (op : Op) (fuel : ℕ) (hf : bs.length ≤ fuel) :
    ∃ s' bs', step fuel s op = .ok s' ∧ Advance rs s s' op bs bs' := by
  cases op with
  | alloc layout =>
    by_cases h : 0 < layout.size ∧ Room bs layout
    · obtain ⟨heap',pre,b,post,-,hrun,hne,ha⟩ := alloc_room rs hrs s bs hi fuel hf layout h.1 h.2
      refine ⟨_,_,?_,ha⟩
      rw [step, hrun]
      exact if_neg hne
    · refine ⟨s,bs,?_,advance_idle rs s _ bs hi⟩
      rw [step, alloc_full rs s bs hi fuel hf layout h]
      rfl
  | dealloc index =>
    cases hidx : s.live[index]? with
    | none => exact ⟨s,bs,by simp only [step, hidx, pure_eq],advance_idle rs s _ bs hi⟩
    | some a =>
      obtain ⟨heap',hrun,hadv⟩ := dealloc_live rs hrs s bs hi index a hidx
      refine ⟨_,_,?_,hadv⟩
      simp only [step, hidx, hrun, ok_bind, pure_eq]
  | poke index offset byte =>
    cases hidx : s.live[index]? with
    | none => exact ⟨s,bs,by simp only [step, hidx, pure_eq],advance_idle rs s _ bs hi⟩
    | some a =>
      by_cases hlt : offset < a.layout.size
      · refine ⟨_,bs,?_,poke_advance rs hrs s bs hi index offset byte a hidx hlt⟩
        simp only [step, hidx, if_pos hlt, pure_eq]
      · exact ⟨s,bs,by simp only [step, hidx, if_neg hlt, pure_eq],advance_idle rs s _ bs hi⟩

end Step

/-- A run never faults. Its last list of blocks refines the first. -/
theorem run_advance (rs : List (ℕ × ℕ)) (hrs : rs.Pairwise Apart) (s : Client) (bs : List Block)
    (hi : Inv rs s bs) (ops : List Op) (fuel : ℕ) (hf : bs.length+2*ops.length ≤ fuel) :
    ∃ s' bs', runFrom fuel s ops = .ok s' ∧ Inv rs s' bs' ∧
      Refines Block.addr Block.stop bs' bs ∧ bs'.length ≤ bs.length+2*ops.length := by
  induction ops generalizing s bs with
  | nil => exact ⟨s,bs,rfl,hi,refines_refl _ _ bs,by simp⟩
  | cons op ops ih =>
    rw [List.length_cons] at hf
    obtain ⟨s1,bs1,h1,ha⟩ := step_advance rs hrs s bs hi op fuel (by omega)
    have hlen := ha.length
    obtain ⟨s2,bs2,h2,hi2,hr2,hl2⟩ := ih s1 bs1 ha.inv (by omega)
    refine ⟨s2,bs2,?_,hi2,refines_trans _ _ _ _ _ hr2 ha.refines,?_⟩
    · rw [runFrom, List.foldlM_cons, h1]
      exact h2
    · rw [List.length_cons]
      omega

theorem freeBlocks_tile (rs : List (ℕ × ℕ)) (h : ∀ r ∈ rs, RegionOk r) :
    TilesAll Block.addr Block.stop rs (rs.map freeBlock) := by
  induction rs with
  | nil => rfl
  | cons r rs ih =>
    have hr := (h r (by simp)).room
    refine ⟨[freeBlock r],rs.map freeBlock,rfl,⟨rfl,?_,?_⟩,ih (fun q hq => h q (by simp [hq]))⟩
    · change r.1 < r.1+(r.2-r.1)
      omega
    · change r.1+(r.2-r.1) = r.2
      omega

theorem freeBlocks_granular (r : ℕ × ℕ) (h : RegionOk r) : Granular (freeBlock r) := by
  obtain ⟨h1,h2,-,h4,h5⟩ := h
  have hH : headerSize = 32 := rfl
  refine ⟨?_,?_,?_,?_⟩
  · change headerSize ∣ r.1
    rw [hH]
    omega
  · change headerSize ∣ r.2-r.1
    rw [hH]
    omega
  · change headerSize ≤ r.2-r.1
    omega
  · change r.1+(r.2-r.1) < 2^64
    omega

theorem freeBlocks_large (rs : List (ℕ × ℕ)) (h : ∀ r ∈ rs, RegionOk r) :
    (rs.map freeBlock).countP large = rs.length := by
  rw [List.countP_eq_length.mpr, List.length_map]
  intro b hb
  obtain ⟨r,hr,rfl⟩ := List.mem_map.mp hb
  have hroom := (h r hr).room
  apply decide_eq_true
  change headerSize*2 ≤ r.2-r.1
  unfold headerSize
  omega

section Boot
variable (map : MemoryMapHolder) (ds : List EfiMemoryDescriptor) (hs : Shows map ds)
  (hc : ConventionalContract ds) (memory : HeaderMemory)
include hs hc

theorem boot_inv (fuel : ℕ) (hf : ds.length < fuel) :
    ∃ s, boot fuel map memory = .ok s ∧ s.live = [] ∧ s.granted = [] ∧
      Inv (registeredRegions ds) s ((registeredRegions ds).map freeBlock) := by
  obtain ⟨heap,hinit,hchain⟩ := init_registers map ds hs hc memory fuel hf
  have hrs : ∀ r ∈ registeredRegions ds, RegionOk r := fun r hr => (registered_ok ds hc r hr).1
  refine ⟨⟨heap,[],[]⟩,by rw [boot, hinit]; rfl,rfl,rfl,?_⟩
  refine ⟨hchain,freeBlocks_tile _ hrs,?_,by simp,by simp,by simp,List.nodup_nil,?_⟩
  · intro b hb
    obtain ⟨r,hr,rfl⟩ := List.mem_map.mp hb
    exact freeBlocks_granular r (hrs r hr)
  · rw [freeBlocks_large _ hrs]
    simp

/-- Every state that a client reaches from the initialisation. -/
theorem run_inv (ops : List Op) (fuel : ℕ) (hf : ds.length+2*ops.length < fuel) :
    ∃ s bs, run fuel map memory ops = .ok s ∧ Inv (registeredRegions ds) s bs ∧
      bs.length ≤ ds.length+2*ops.length := by
  obtain ⟨s,hboot,-,-,hi⟩ := boot_inv map ds hs hc memory fuel (by omega)
  have hlen : (registeredRegions ds).length ≤ ds.length := by
    rw [registeredRegions, List.length_reverse]
    exact (List.length_filterMap_le _ _).trans (List.length_filter_le _ _)
  obtain ⟨s',bs',hrun,hi',-,hl⟩ := run_advance _ (registered_apart ds hc) s _ hi ops fuel
    (by rw [List.length_map]; omega)
  rw [List.length_map] at hl
  refine ⟨s',bs',?_,hi',by omega⟩
  rw [run, hboot]
  exact hrun

end Boot

end Wasabi.Allocator.Runs
