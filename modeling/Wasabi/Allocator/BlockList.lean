import Wasabi.Allocator.Provide

/-!
# The allocator on its list of blocks

First fit, release and registration as functions on the list that the headers
show. Each loop or write of the allocator refines its list function, and
changes memory only inside the one block it works on.
-/

set_option autoImplicit false

namespace Wasabi.Allocator.BlockList
open Wasabi.Rust Wasabi.WordBits Wasabi.ObjectMemory Wasabi.Tiling
open Wasabi.Allocator.FirstFit Wasabi.Allocator.SizeRounding Wasabi.Allocator.Provide

def Separate (bs : List Block) : Prop :=
  bs.Pairwise (fun b c => Apart (b.addr,b.stop) (c.addr,c.stop))

/-- Blocks that are apart have headers that do not overlap. -/
theorem headers_apart (b c : Block) (hb : headerSize ≤ b.size) (hc : headerSize ≤ c.size)
    (h : Apart (b.addr,b.stop) (c.addr,c.stop)) :
    b.addr+headerSize ≤ c.addr ∨ c.addr+headerSize ≤ b.addr := by
  unfold Apart Block.stop at h
  simp only at h
  omega

/-- The first block that admits the request is cut in place. -/
def firstFit (s a : ℕ) : List Block → Option (ℕ × List Block)
  | [] => none
  | b::bs => if Admits b s a then some (placed b s a,cut b s a++bs)
      else (firstFit s a bs).map (fun r => (r.1,b::r.2))

def release (addr : ℕ) (b : Block) : Block :=
  if b.addr = addr then {b with isAllocated := false} else b

@[simp] theorem release_addr (addr : ℕ) (b : Block) : (release addr b).addr = b.addr := by
  unfold release
  split_ifs <;> rfl

@[simp] theorem release_size (addr : ℕ) (b : Block) : (release addr b).size = b.size := by
  unfold release
  split_ifs <;> rfl

@[simp] theorem release_stop (addr : ℕ) (b : Block) : (release addr b).stop = b.stop := by
  simp [Block.stop]

theorem release_other (addr : ℕ) (b : Block) (h : b.addr ≠ addr) : release addr b = b := if_neg h

theorem firstFit_none (s a : ℕ) (bs : List Block) :
    firstFit s a bs = none ↔ ∀ b ∈ bs, ¬ Admits b s a := by
  induction bs with
  | nil => simp [firstFit]
  | cons b bs ih =>
    by_cases hb : Admits b s a
    · simp [firstFit, hb]
    · simp [firstFit, hb, ih]

/-- The chosen block is the first in list order that admits the request. -/
theorem firstFit_some (s a : ℕ) (bs : List Block) (p : ℕ) (bs' : List Block) :
    firstFit s a bs = some (p,bs') ↔
      ∃ pre b post, bs = pre++b::post ∧ (∀ c ∈ pre, ¬ Admits c s a) ∧ Admits b s a ∧
        p = placed b s a ∧ bs' = pre++(cut b s a++post) := by
  induction bs generalizing bs' with
  | nil => simp [firstFit]
  | cons b bs ih =>
    by_cases hb : Admits b s a
    · rw [firstFit, if_pos hb]
      constructor
      · intro h
        cases h
        exact ⟨[],b,bs,rfl,by simp,hb,rfl,rfl⟩
      · rintro ⟨pre,c,post,he,hpre,hc,rfl,rfl⟩
        cases pre with
        | nil =>
          obtain ⟨rfl,rfl⟩ := List.cons.inj he
          rfl
        | cons d pre =>
          obtain ⟨rfl,rfl⟩ := List.cons.inj he
          exact absurd hb (hpre _ (by simp))
    · rw [firstFit, if_neg hb]
      constructor
      · intro h
        obtain ⟨⟨q,cs⟩,hq,he⟩ := Option.map_eq_some_iff.mp h
        cases he
        obtain ⟨pre,c,post,rfl,hpre,hc,hp,rfl⟩ := (ih cs).mp hq
        refine ⟨b::pre,c,post,rfl,?_,hc,hp,rfl⟩
        intro d hd
        rcases List.mem_cons.mp hd with rfl | hd
        · exact hb
        · exact hpre d hd
      · rintro ⟨pre,c,post,he,hpre,hc,hp,rfl⟩
        cases pre with
        | nil =>
          obtain ⟨rfl,rfl⟩ := List.cons.inj he
          exact absurd hc hb
        | cons d pre =>
          obtain ⟨rfl,rfl⟩ := List.cons.inj he
          rw [(ih (pre++(cut c s a++post))).mpr
            ⟨pre,c,post,rfl,fun e he => hpre e (by simp [he]),hc,hp,rfl⟩]
          rfl

theorem load_apart (m m' : HeaderMemory) (b c : Block)
    (hm : ∀ x, x < b.addr ∨ b.stop ≤ x → m' x = m x)
    (hd : Apart (b.addr,b.stop) (c.addr,c.stop)) (hc : headerSize ≤ c.size) :
    load headerSize m' c.addr = load headerSize m c.addr := by
  apply load_congr headerSize (by decide)
  intro x h1 h2
  apply hm
  have hs : c.stop = c.addr+c.size := rfl
  rcases hd with h | h
  · simp only at h
    omega
  · simp only at h
    omega

theorem allocLoop_next (layout : Layout) (m : HeaderMemory) (fuel addr : ℕ) (h : Header)
    (hp : provide m addr layout.size layout.align = .ok (m,none))
    (hl : load headerSize m addr = some h) :
    allocLoop (fuel+1) m (some addr) layout = allocLoop fuel m h.nextHeader layout := by
  rw [allocLoop, hp, ok_bind]
  simp only [readHeader_ok m _ h hl, ok_bind]

/-- A list whose blocks all refuse yields the null pointer and is left alone. -/
theorem alloc_exhausted (layout : Layout) (m : HeaderMemory) (bs : List Block) (fuel : ℕ)
    (cursor : Option ℕ) (hf : bs.length ≤ fuel) (hc : Chain m cursor bs)
    (hp : ∀ b ∈ bs, ∀ h, load headerSize m b.addr = some h → ShowsBlock h b →
      provide m b.addr layout.size layout.align = .ok (m,none)) :
    allocLoop fuel m cursor layout = .ok (m,0) := by
  induction bs generalizing cursor fuel with
  | nil =>
    rw [show cursor = none from hc]
    cases fuel <;> rfl
  | cons b bs ih =>
    obtain ⟨rfl,h,hl,hs,ht⟩ := hc
    cases fuel with
    | zero => simp at hf
    | succ fuel =>
      rw [allocLoop_next layout m fuel _ h (hp b (by simp) h hl hs) hl]
      exact ih fuel h.nextHeader (by simpa using hf) ht (fun c hc => hp c (by simp [hc]))

theorem alloc_refused (layout : Layout) (m : HeaderMemory) (bs : List Block) (fuel : ℕ)
    (cursor : Option ℕ) (h0 : 0 < layout.size) (hf : bs.length ≤ fuel)
    (hc : Chain m cursor bs)
    (hn : ∀ b ∈ bs, ¬ Admits b (requestSize layout.size) (requestAlign layout.align)) :
    allocLoop fuel m cursor layout = .ok (m,0) :=
  alloc_exhausted layout m bs fuel cursor hf hc fun b hb h hl hs =>
    provide_skip m b h layout.size layout.align (layout_request layout h0)
      (roundUp_ok layout.size h0 (layout_size_le layout)) hl hs (hn b hb)

/-- A request of size zero is refused by every block. -/
theorem alloc_zero (layout : Layout) (m : HeaderMemory) (bs : List Block) (fuel : ℕ)
    (cursor : Option ℕ) (h0 : layout.size = 0) (hf : bs.length ≤ fuel) (hc : Chain m cursor bs) :
    allocLoop fuel m cursor layout = .ok (m,0) := by
  apply alloc_exhausted layout m bs fuel cursor hf hc
  intro b hb h hl hs
  exact provide_refuses m b.addr layout.size layout.align (by omega) (Or.inl h0)

/-- The first block that admits the request is cut. The rest of the list and
every byte outside that block stay as they are. -/
theorem alloc_granted (layout : Layout) (m : HeaderMemory) (pre post : List Block) (b : Block)
    (fuel : ℕ) (cursor : Option ℕ) (h0 : 0 < layout.size)
    (hf : (pre++b::post).length ≤ fuel) (hc : Chain m cursor (pre++b::post))
    (hg : ∀ c ∈ pre++b::post, Granular c) (hsep : Separate (pre++b::post))
    (hn : ∀ c ∈ pre, ¬ Admits c (requestSize layout.size) (requestAlign layout.align))
    (ha : Admits b (requestSize layout.size) (requestAlign layout.align)) :
    ∃ m', allocLoop fuel m cursor layout =
        .ok (m',placed b (requestSize layout.size) (requestAlign layout.align)) ∧
      Chain m' cursor
        (pre++(cut b (requestSize layout.size) (requestAlign layout.align)++post)) ∧
      ∀ x, x < b.addr ∨ b.stop ≤ x → m' x = m x := by
  have hr := layout_request layout h0
  have hround := roundUp_ok layout.size h0 (layout_size_le layout)
  induction pre generalizing cursor fuel with
  | nil =>
    obtain ⟨rfl,h,hl,hs,ht⟩ := hc
    cases fuel with
    | zero => simp at hf
    | succ fuel =>
      obtain ⟨m',hp,hseg,hout⟩ := provide_cut m b h layout.size layout.align hr hround hl hs
        (hg b (by simp)) ha
      refine ⟨m',by rw [allocLoop, hp]; rfl,?_,hout⟩
      rw [List.nil_append]
      apply (LinkedList.segment_append _ _ _ _ _ _ _ _).mpr
      refine ⟨h.nextHeader,hseg,?_⟩
      apply LinkedList.segment_congr _ _ _ _ _ _ _ _ _ ht
      intro c hc
      exact load_apart m m' b c hout ((List.pairwise_cons.mp hsep).1 c hc)
        (hg c (by simp [hc])).room
  | cons d pre ih =>
    obtain ⟨rfl,h,hl,hs,ht⟩ := hc
    cases fuel with
    | zero => simp at hf
    | succ fuel =>
      obtain ⟨hd,hrest⟩ := List.pairwise_cons.mp hsep
      obtain ⟨m',hp,hchain,hout⟩ := ih fuel h.nextHeader (by simpa using hf) ht
        (fun c hc => hg c (List.mem_cons_of_mem _ hc)) hrest (fun c hc => hn c (by simp [hc]))
      have hskip := provide_skip m d h layout.size layout.align hr hround hl hs (hn d (by simp))
      refine ⟨m',?_,?_,hout⟩
      · rw [allocLoop_next layout m fuel _ h hskip hl]
        exact hp
      · refine ⟨rfl,h,?_,hs,hchain⟩
        rw [load_apart m m' b d hout (apart_symm _ _ (hd b (by simp))) (hg d (by simp)).room]
        exact hl

/-- The flag of the header in front of the pointer is all that is written. -/
theorem dealloc_ok (heap : Heap) (p : ℕ) (h : Header) (hp : headerSize ≤ p)
    (hl : load headerSize heap.memory (p-headerSize) = some h) :
    dealloc heap p = .ok {heap with
      memory := writeHeader heap.memory (p-headerSize) {h with isAllocated := false}} := by
  rw [dealloc, checkedSub_ok _ _ hp, ok_bind, setIsAllocated, readHeader_ok _ _ h hl]
  rfl

/-- Releasing a block of the list clears its flag and nothing else. -/
theorem dealloc_release (heap : Heap) (bs : List Block) (b : Block) (p : ℕ)
    (hb : b ∈ bs) (hp : p = b.addr+headerSize) (hc : Chain heap.memory heap.firstHeader bs)
    (hg : ∀ c ∈ bs, Granular c) (hsep : Separate bs) :
    ∃ m', dealloc heap p = .ok {heap with memory := m'} ∧
      Chain m' heap.firstHeader (bs.map (release b.addr)) ∧
      ∀ x, x < b.addr ∨ b.addr+headerSize ≤ x → m' x = heap.memory x := by
  obtain ⟨h,hl,-⟩ := LinkedList.segment_mem _ _ _ _ _ _ _ hc b hb
  have hsub : p-headerSize = b.addr := by omega
  refine ⟨writeHeader heap.memory b.addr {h with isAllocated := false},?_,?_,?_⟩
  · have hok := dealloc_ok heap p h (by omega) (by rw [hsub]; exact hl)
    rwa [hsub] at hok
  · apply LinkedList.segment_map _ _ _ _ _ _ _ _ _ (release_addr b.addr) _ hc
    intro c hcm n hn hs
    by_cases hcb : c.addr = b.addr
    · rw [hcb, hl] at hn
      cases hn
      refine ⟨{h with isAllocated := false},by rw [hcb]; exact load_writeHeader _ _ _,rfl,?_,?_⟩
      · simpa using hs.1
      · simp [release, hcb]
    · refine ⟨n,?_,rfl,?_⟩
      · have hne : c ≠ b := fun he => hcb (congrArg Block.addr he)
        rw [load_writeHeader_other, hn]
        exact headers_apart c b (hg c hcm).room (hg b hb).room
          (apart_of_ne Block.addr Block.stop bs hsep c b hcm hb hne)
      · rw [release_other _ _ hcb]
        exact hs
  · intro x hx
    exact writeHeader_outside _ _ _ _ hx

/-- A new block in front of the list. -/
theorem register_front (heap : Heap) (bs : List Block) (d : Uefi.MemoryMap.EfiMemoryDescriptor)
    (start size : ℕ) (hu : usableRange d = .ok (some (start,size)))
    (hc : Chain heap.memory heap.firstHeader bs) (hsz : headerSize ≤ size)
    (hroom : ∀ c ∈ bs, headerSize ≤ c.size)
    (hsep : ∀ c ∈ bs, Apart (start,start+size) (c.addr,c.stop)) :
    ∃ heap', addFreeFromDescriptor heap d = .ok heap' ∧
      Chain heap'.memory heap'.firstHeader (⟨start,size,false⟩::bs) := by
  simp only [addFreeFromDescriptor, hu, ok_bind, setNextHeader, setIsAllocated, setSize, readHeader,
    newFromAddr, load_writeHeader, deref_some, pure_eq]
  refine ⟨_,rfl,rfl,_,load_writeHeader _ _ _,⟨rfl,rfl⟩,?_⟩
  apply LinkedList.segment_congr _ _ _ _ _ _ _ _ _ hc
  intro c hcm
  have hd := headers_apart c ⟨start,size,false⟩ (hroom c hcm) hsz (apart_symm _ _ (hsep c hcm))
  simp only [load_writeHeader_other _ _ _ _ hd]

end Wasabi.Allocator.BlockList
