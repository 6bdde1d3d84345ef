import Wasabi.Allocator.Safety

/-!
# What a single request does

The result of a request is a function of the list of blocks: nothing, or a cut
of the first free block that is large enough. On the way no checked operation
of the source fails, because the admission test and the granularity of the
blocks leave exactly the margins that the cut needs.
-/

set_option autoImplicit false

namespace Wasabi.Allocator.Behaviour
open Wasabi.Rust Wasabi.WordBits Wasabi.Tiling Wasabi.Uefi.MemoryMap
open Wasabi.Allocator.FirstFit Wasabi.Allocator.SizeRounding Wasabi.Allocator.Provide
open Wasabi.Allocator.BlockList Wasabi.Allocator.Registration Wasabi.Allocator.Runs
open Wasabi.Allocator.Safety

/-- The powers of two from `n` on. -/
def powersFrom (n : ℕ) : Set ℕ := {r | (∃ k, r = 2^k) ∧ n ≤ r}

theorem requestSize_least (n r : ℕ) (h : IsLeast (powersFrom n) r) : requestSize n = max r 32 := by
  rw [requestSize, (least_two_pow n).unique h]
  rfl

/-- A free block with room for the request, two headers and the alignment. -/
def Fits (b : Block) (s a : ℕ) : Prop := b.isAllocated = false ∧ s+64+a ≤ b.size

/-- What takes the place of a block `b` from which `s` bytes are cut at `p`. -/
def pieces (b : Block) (s p : ℕ) : List Block :=
  [⟨b.addr,p-32-b.addr,false⟩,⟨p-32,s+32,true⟩]++
    if p+s = b.stop then [] else [⟨p+s,b.stop-(p+s),false⟩]

theorem cut_pieces (b : Block) (s a : ℕ) : cut b s a = pieces b s (alignDown a (b.stop-s)) := by
  rfl

/-- In every reachable state a request is refused without any effect if no
block fits, and else cuts the first block that fits and no other. -/
theorem alloc_first_fit (map : MemoryMapHolder) (hmap : UefiContract map)
    (hconv : ConventionalContract (descriptors map)) (memory : HeaderMemory) (ops : List Op)
    (fuel : ℕ) (hf : (descriptors map).length+2*ops.length < fuel) (layout : Layout) (r : ℕ)
    (hr : IsLeast (powersFrom layout.size) r) :
    ∃ s blocks heap' p blocks', run fuel map memory ops = .ok s ∧
      Chain s.heap.memory s.heap.firstHeader blocks ∧
      allocWithOptions fuel s.heap layout = .ok (heap',p) ∧
      Chain heap'.memory heap'.firstHeader blocks' ∧
      (layout.size = 0 ∨ (∀ b ∈ blocks, ¬ Fits b (max r 32) (max layout.align 32)) →
        p = 0 ∧ heap' = s.heap ∧ blocks' = blocks) ∧
      (0 < layout.size → ∀ pre b post, blocks = pre++b::post →
        (∀ c ∈ pre, ¬ Fits c (max r 32) (max layout.align 32)) →
        Fits b (max r 32) (max layout.align 32) →
        p = alignDown (max layout.align 32) (b.stop-max r 32) ∧
          b.addr+96 ≤ p ∧ p+max r 32 ≤ b.stop ∧
          blocks' = pre++(pieces b (max r 32) p++post)) := by
  have hrs := registered_apart _ hconv
  obtain ⟨s,bs,hrun,hi,hlen⟩ := run_inv map _ (contract_shows map hmap) hconv memory ops fuel hf
  have hsize := requestSize_least layout.size r hr
  have halign : requestAlign layout.align = max layout.align 32 := rfl
  rw [← hsize, ← halign]
  cases hff : firstFit (requestSize layout.size) (requestAlign layout.align) bs with
  | none =>
    have hno := (firstFit_none _ _ bs).mp hff
    have halloc := alloc_full _ s bs hi fuel (by omega) layout (fun ⟨_,b,hb,ha⟩ => hno b hb ha)
    refine ⟨s,bs,s.heap,0,bs,hrun,hi.chain,halloc,hi.chain,fun _ => ⟨rfl,rfl,rfl⟩,?_⟩
    intro _ pre b post he _ hfit
    exact absurd hfit (hno b (by rw [he]; simp))
  | some res =>
    obtain ⟨pre,b,post,he,hpre,hfit,hp,hbs⟩ := (firstFit_some _ _ bs res.1 res.2).mp hff
    rcases Nat.eq_zero_or_pos layout.size with h0 | hpos
    · have halloc := alloc_full _ s bs hi fuel (by omega) layout (fun h => by omega)
      exact ⟨s,bs,s.heap,0,bs,hrun,hi.chain,halloc,hi.chain,fun _ => ⟨rfl,rfl,rfl⟩,by omega⟩
    · obtain ⟨heap',halloc,-,hadv⟩ := alloc_first _ hrs s bs hi fuel (by omega) layout hpos pre post
        b he hpre hfit
      refine ⟨s,bs,heap',_,_,hrun,hi.chain,halloc,hadv.inv.chain,?_,?_⟩
      · rintro (h0 | hno)
        · omega
        · exact absurd hfit (hno b (by rw [he]; simp))
      · intro _ pre' b' post' he' hpre' hfit'
        have hsame := (firstFit_some _ _ bs _ _).mpr ⟨pre',b',post',he',hpre',hfit',rfl,rfl⟩
        rw [hff] at hsame
        obtain ⟨hp',hbs'⟩ := Prod.mk.inj (Option.some.inj hsame)
        obtain ⟨-,-,hfront,hback,-,-⟩ := placed_cutAt b' _ _ (hi.granular b' (by rw [he']; simp))
          (layout_request layout hpos) hfit'
        have hptr : (grantFrom b layout).ptr =
            placed b' (requestSize layout.size) (requestAlign layout.align) := hp.symm.trans hp'
        rw [hptr]
        refine ⟨rfl,hfront,hback,?_⟩
        rw [cutFor, ← hbs, hbs', cut_pieces]
        rfl

theorem least_small : IsLeast (powersFrom 100) 128 := by
  rw [← (by decide : 2^bitLength (100-1) = 128)]
  exact least_two_pow 100

theorem alloc_first_fit_small :
    ∃ s blocks heap' p blocks',
      run 20 smallMap (fun _ => .raw 0) [.alloc (layout 8 12 (by decide)),.dealloc 0] = .ok s ∧
      Chain s.heap.memory s.heap.firstHeader blocks ∧
      allocWithOptions 20 s.heap (layout 100 3 (by decide)) = .ok (heap',p) ∧
      Chain heap'.memory heap'.firstHeader blocks' ∧
      (100 = 0 ∨ (∀ b ∈ blocks, ¬ Fits b (max 128 32) (max (2^3) 32)) →
        p = 0 ∧ heap' = s.heap ∧ blocks' = blocks) ∧
      (0 < 100 → ∀ pre b post, blocks = pre++b::post →
        (∀ c ∈ pre, ¬ Fits c (max 128 32) (max (2^3) 32)) → Fits b (max 128 32) (max (2^3) 32) →
        p = alignDown (max (2^3) 32) (b.stop-max 128 32) ∧
          b.addr+96 ≤ p ∧ p+max 128 32 ≤ b.stop ∧
          blocks' = pre++(pieces b (max 128 32) p++post)) :=
  alloc_first_fit smallMap smallMap_contract smallMap_conventional _ _ 20
    (by rw [smallMap_descriptors]; decide) (layout 100 3 (by decide)) 128 least_small

/-- What the checked operations of the cutting branch of `provide` need: the
end of the block, the aligned address, the header in front of it, the padding
behind it and the rest of the block. -/
structure Margins (b : Block) (s a : ℕ) : Prop where
  request : s ≤ b.addr+b.size
  header : 32 ≤ placed b s a
  behind : placed b s a-32+(s+32) ≤ b.addr+b.size
  used : (s+32)+(b.addr+b.size-(placed b s a-32+(s+32)))+32 < b.size

theorem admits_margins (b : Block) (s a : ℕ) (hg : Granular b) (hr : Request s a)
    (ha : Admits b s a) : Margins b s a := by
  obtain ⟨-,-,hfront,hback,-,-⟩ := placed_cutAt b s a hg hr ha
  have hH : headerSize = 32 := rfl
  have hstop : b.stop = b.addr+b.size := rfl
  rw [hstop] at hback
  exact ⟨by omega,by omega,by omega,by omega⟩

/-- Every call of `provide` on a header of the list returns, and one that
returns nothing has changed nothing. -/
theorem provide_returns (m : HeaderMemory) (first : Option ℕ) (bs : List Block)
    (hc : Chain m first bs) (hg : ∀ b ∈ bs, Granular b) (layout : Layout) (b : Block)
    (hb : b ∈ bs) : ∃ m' q, provide m b.addr layout.size layout.align = .ok (m',q) ∧
      (q = none → m' = m) := by
  obtain ⟨h,hl,hs⟩ := LinkedList.segment_mem _ _ _ _ _ _ _ hc b hb
  rcases Nat.eq_zero_or_pos layout.size with h0 | hpos
  · have hp := provide_refuses m b.addr layout.size layout.align (by omega) (Or.inl h0)
    exact ⟨m,none,hp,fun _ => rfl⟩
  · have hr := layout_request layout hpos
    have hround := roundUp_ok layout.size hpos (layout_size_le layout)
    by_cases ha : Admits b (requestSize layout.size) (requestAlign layout.align)
    · obtain ⟨m',hp,-,-⟩ := provide_cut m b h layout.size layout.align hr hround hl hs (hg b hb) ha
      exact ⟨m',_,hp,fun hq => absurd hq (Option.some_ne_none _)⟩
    · exact ⟨m,none,provide_skip m b h layout.size layout.align hr hround hl hs ha,fun _ => rfl⟩

/-- In every reachable state no operation of a request wraps, fails its check
or drops a header: the call returns, and the sums and differences that it
takes are those of the margins. -/
theorem alloc_never_faults (map : MemoryMapHolder) (hmap : UefiContract map)
    (hconv : ConventionalContract (descriptors map)) (memory : HeaderMemory) (ops : List Op)
    (fuel : ℕ) (hf : (descriptors map).length+2*ops.length < fuel) (layout : Layout) :
    ∃ s blocks, run fuel map memory ops = .ok s ∧
      Chain s.heap.memory s.heap.firstHeader blocks ∧
      (∃ result, allocWithOptions fuel s.heap layout = .ok result) ∧
      (0 < layout.size → requestSize layout.size+64+requestAlign layout.align < 2^64) ∧
      ∀ b ∈ blocks, b.addr+b.size < 2^64 ∧
        (∃ m' q, provide s.heap.memory b.addr layout.size layout.align = .ok (m',q) ∧
          (q = none → m' = s.heap.memory)) ∧
        (0 < layout.size → Admits b (requestSize layout.size) (requestAlign layout.align) →
          Margins b (requestSize layout.size) (requestAlign layout.align)) := by
  have hrs := registered_apart _ hconv
  obtain ⟨s,bs,hrun,hi,hlen⟩ := run_inv map _ (contract_shows map hmap) hconv memory ops fuel hf
  refine ⟨s,bs,hrun,hi.chain,?_,fun hpos => (layout_request layout hpos).bound,?_⟩
  · by_cases hroom : 0 < layout.size ∧ Room bs layout
    · obtain ⟨heap',-,b,-,-,halloc,-,-⟩ :=
        alloc_room _ hrs s bs hi fuel (by omega) layout hroom.1 hroom.2
      exact ⟨_,halloc⟩
    · exact ⟨_,alloc_full _ s bs hi fuel (by omega) layout hroom⟩
  · intro b hb
    have hg := hi.granular b hb
    refine ⟨hg.bound,provide_returns _ _ bs hi.chain hi.granular layout b hb,?_⟩
    exact fun hpos ha => admits_margins b _ _ hg (layout_request layout hpos) ha

theorem alloc_never_faults_small :
    ∃ s blocks,
      run 20 smallMap (fun _ => .raw 0) [.alloc (layout 8 12 (by decide)),.dealloc 0] = .ok s ∧
      Chain s.heap.memory s.heap.firstHeader blocks ∧
      (∃ result, allocWithOptions 20 s.heap (layout 100 3 (by decide)) = .ok result) ∧
      (0 < 100 → requestSize 100+64+requestAlign (2^3) < 2^64) ∧
      ∀ b ∈ blocks, b.addr+b.size < 2^64 ∧
        (∃ m' q, provide s.heap.memory b.addr 100 (2^3) = .ok (m',q) ∧
          (q = none → m' = s.heap.memory)) ∧
        (0 < 100 → Admits b (requestSize 100) (requestAlign (2^3)) →
          Margins b (requestSize 100) (requestAlign (2^3))) :=
  alloc_never_faults smallMap smallMap_contract smallMap_conventional _ _ 20
    (by rw [smallMap_descriptors]; decide) (layout 100 3 (by decide))

end Wasabi.Allocator.Behaviour
