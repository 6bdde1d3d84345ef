import Wasabi.Allocator.Safety

/-!
# Allocating a layout again after freeing it

The admission test asks for room for two headers and the alignment on top of
the request, while a granted block keeps one header only. A freed block is in
the list again, but it is never cut for the layout it was cut for: the second
request is granted exactly if it could have been granted without the release.
-/

set_option autoImplicit false

namespace Wasabi.Allocator.Reuse
open Wasabi.Rust Wasabi.Tiling Wasabi.Uefi.MemoryMap
open Wasabi.Allocator.FirstFit Wasabi.Allocator.Provide Wasabi.Allocator.BlockList
open Wasabi.Allocator.Registration Wasabi.Allocator.Runs Wasabi.Allocator.Safety

theorem alloc_null_iff (rs : List (ℕ × ℕ)) (hrs : rs.Pairwise Apart) (s : Client)
    (bs : List Block) (hi : Inv rs s bs) (fuel : ℕ) (hf : bs.length ≤ fuel) (layout : Layout)
    (hpos : 0 < layout.size) : ∃ heap' q, allocWithOptions fuel s.heap layout = .ok (heap',q) ∧
      (q ≠ 0 ↔ Room bs layout) := by
  by_cases hroom : Room bs layout
  · obtain ⟨heap',-,b,-,-,hrun,hne,-⟩ := alloc_room rs hrs s bs hi fuel hf layout hpos hroom
    exact ⟨heap',_,hrun,iff_of_true hne hroom⟩
  · exact ⟨s.heap,0,alloc_full rs s bs hi fuel hf layout (fun h => hroom h.2),
      iff_of_false (fun h => h rfl) hroom⟩

/-- Releasing the block of a layout makes no room for that layout. -/
theorem release_room (bs : List Block) (hd : (bs.map Block.addr).Nodup) (a : Allocation)
    (ha : blockOf a ∈ bs) :
    Room (bs.map (release (blockOf a).addr)) a.layout ↔ Room bs a.layout := by
  constructor
  · rintro ⟨c,hc,hadm⟩
    obtain ⟨b,hb,rfl⟩ := List.mem_map.mp hc
    by_cases haddr : b.addr = (blockOf a).addr
    · have hsame : b = blockOf a := List.inj_on_of_nodup_map hd hb ha haddr
      have hsize := hadm.2
      rw [release_size, hsame] at hsize
      change _ ≤ requestSize a.layout.size+headerSize at hsize
      unfold headerSize at hsize
      omega
    · rw [release_other _ _ haddr] at hadm
      exact ⟨b,hb,hadm⟩
  · rintro ⟨b,hb,hadm⟩
    refine ⟨release (blockOf a).addr b,List.mem_map_of_mem hb,?_,?_⟩
    · unfold release
      split_ifs
      · rfl
      · exact hadm.1
    · rw [release_size]
      exact hadm.2

/-- The freed block is there for every layout that passes the test on it. -/
theorem release_serves (bs : List Block) (a : Allocation) (ha : blockOf a ∈ bs) (layout : Layout)
    (h : requestSize layout.size+headerSize*2+requestAlign layout.align ≤
      requestSize a.layout.size+headerSize) :
    Room (bs.map (release (blockOf a).addr)) layout := by
  refine ⟨_,List.mem_map_of_mem ha,?_,?_⟩
  · rw [release, if_pos rfl]
  · rw [release_size]
    exact h

/-- After a layout was granted and freed, the same layout is granted again
exactly if the list held another block that admits it. -/
theorem reuse_iff (map : MemoryMapHolder) (hmap : UefiContract map)
    (hconv : ConventionalContract (descriptors map)) (memory : HeaderMemory) (ops : List Op)
    (fuel : ℕ) (hf : (descriptors map).length+2*(ops.length+1) < fuel) (s : Client)
    (hs : run fuel map memory ops = .ok s) (layout : Layout) (hpos : 0 < layout.size)
    (heap1 : Heap) (p : ℕ) (h1 : allocWithOptions fuel s.heap layout = .ok (heap1,p))
    (hp : p ≠ 0) :
    ∃ blocks heap2, Chain heap1.memory heap1.firstHeader blocks ∧ dealloc heap1 p = .ok heap2 ∧
      (∃ heap3 q, allocWithOptions fuel heap2 layout = .ok (heap3,q) ∧
        (q ≠ 0 ↔ ∃ b ∈ blocks, b.isAllocated = false ∧
          requestSize layout.size+headerSize*2+requestAlign layout.align ≤ b.size)) ∧
      ∀ other : Layout, 0 < other.size →
        requestSize other.size+headerSize*2+requestAlign other.align ≤
          requestSize layout.size+headerSize →
        ∃ heap3 q, allocWithOptions fuel heap2 other = .ok (heap3,q) ∧ q ≠ 0 := by
  have hrs := registered_apart _ hconv
  obtain ⟨s',bs,hrun,hi,hlen⟩ := run_inv map _ (contract_shows map hmap) hconv memory ops fuel
    (by omega)
  obtain rfl : s' = s := Except.ok.inj (hrun.symm.trans hs)
  have hroom : Room bs layout := by
    obtain ⟨heap',q,hq,hiff⟩ := alloc_null_iff _ hrs s' bs hi fuel (by omega) layout hpos
    rw [h1] at hq
    cases hq
    exact hiff.mp hp
  obtain ⟨heap',pre,b,post,rfl,hq,-,hadv⟩ :=
    alloc_room _ hrs s' bs hi fuel (by omega) layout hpos hroom
  have hi1 := hadv.inv
  rw [h1] at hq
  cases hq
  set a := grantFrom b layout
  set bs1 := pre++(cutFor b layout++post)
  have hsep := inv_separate _ hrs _ bs1 hi1
  have hmem : blockOf a ∈ bs1 := hi1.owned a List.mem_cons_self
  obtain ⟨heap2,hfree,hadv2⟩ := dealloc_live _ hrs _ bs1 hi1 0 a rfl
  have hi2 := hadv2.inv
  have hlen1 : bs1.length ≤ fuel := by
    have hgrow := hadv.length
    omega
  have hlen2 : (bs1.map (release (blockOf a).addr)).length ≤ fuel := by
    rw [List.length_map]
    exact hlen1
  refine ⟨bs1,heap2,hi1.chain,hfree,?_,?_⟩
  · obtain ⟨heap3,q,hrun3,hiff⟩ := alloc_null_iff _ hrs _ _ hi2 fuel hlen2 layout hpos
    refine ⟨heap3,q,hrun3,hiff.trans ?_⟩
    exact release_room bs1 (separate_nodup bs1 hsep hi1.granular) a hmem
  · intro other hopos hfit
    obtain ⟨heap3,q,hrun3,hiff⟩ := alloc_null_iff _ hrs _ _ hi2 fuel hlen2 other hopos
    exact ⟨heap3,q,hrun3,hiff.mpr (release_serves bs1 a hmem other hfit)⟩

/-- Allocate, free and allocate again. -/
def cycle (fuel : ℕ) (layout : Layout) (heap : Heap) : Eval (ℕ × ℕ) := do
  let (heap,p) ← allocWithOptions fuel heap layout
  let heap ← dealloc heap p
  let (_,q) ← allocWithOptions fuel heap layout
  pure (p,q)

def pageLayout : Layout := layout 4096 0 (by decide)

theorem cycle_small : (do
    let s ← run 5 smallMap (fun _ => .raw 0) []
    cycle 5 pageLayout s.heap) = .ok (8192,0) := by
  decide +kernel

theorem cycle_unfold (fuel : ℕ) (layout : Layout) (heap : Heap) (p q : ℕ)
    (h : cycle fuel layout heap = .ok (p,q)) :
    ∃ heap1 heap2 heap3, allocWithOptions fuel heap layout = .ok (heap1,p) ∧
      dealloc heap1 p = .ok heap2 ∧ allocWithOptions fuel heap2 layout = .ok (heap3,q) := by
  obtain ⟨⟨heap1,p'⟩,h1,h⟩ := bind_ok _ _ _ h
  obtain ⟨heap2,h2,h⟩ := bind_ok _ _ _ h
  obtain ⟨⟨heap3,q'⟩,h3,h⟩ := bind_ok _ _ _ h
  cases h
  exact ⟨heap1,heap2,heap3,h1,h2,h3⟩

theorem reuse_iff_small :
    ∃ (s : Client) (heap1 : Heap), run 5 smallMap (fun _ => .raw 0) [] = .ok s ∧
      ∃ blocks heap2, Chain heap1.memory heap1.firstHeader blocks ∧
        dealloc heap1 8192 = .ok heap2 ∧
        (∃ heap3 q, allocWithOptions 5 heap2 pageLayout = .ok (heap3,q) ∧
          (q ≠ 0 ↔ ∃ b ∈ blocks, b.isAllocated = false ∧
            requestSize pageLayout.size+headerSize*2+requestAlign pageLayout.align ≤ b.size)) ∧
        ∀ other : Layout, 0 < other.size →
          requestSize other.size+headerSize*2+requestAlign other.align ≤
            requestSize pageLayout.size+headerSize →
          ∃ heap3 q, allocWithOptions 5 heap2 other = .ok (heap3,q) ∧ q ≠ 0 := by
  obtain ⟨s,hs,h⟩ := bind_ok _ _ _ cycle_small
  obtain ⟨heap1,-,-,h1,-,-⟩ := cycle_unfold _ _ _ _ _ h
  exact ⟨s,heap1,hs,reuse_iff smallMap smallMap_contract smallMap_conventional _ [] 5
    (by rw [smallMap_descriptors]; decide) s hs pageLayout (by decide) heap1 8192 h1 (by decide)⟩

/-- On two free pages a page is granted and freed, and then refused. -/
theorem freed_page_refused :
    ¬ ∀ (map : MemoryMapHolder) (memory : HeaderMemory) (ops : List Op) (fuel : ℕ) (s : Client)
      (layout : Layout) (heap1 heap2 heap3 : Heap) (p q : ℕ), UefiContract map →
      ConventionalContract (descriptors map) →
      (descriptors map).length+2*(ops.length+1) < fuel → 0 < layout.size →
      run fuel map memory ops = .ok s → allocWithOptions fuel s.heap layout = .ok (heap1,p) →
      p ≠ 0 → dealloc heap1 p = .ok heap2 →
      allocWithOptions fuel heap2 layout = .ok (heap3,q) → q ≠ 0 := by
  intro hclaim
  obtain ⟨s,hs,h⟩ := bind_ok _ _ _ cycle_small
  obtain ⟨heap1,heap2,heap3,h1,h2,h3⟩ := cycle_unfold _ _ _ _ _ h
  exact hclaim smallMap _ [] 5 s pageLayout heap1 heap2 heap3 8192 0 smallMap_contract
    smallMap_conventional (by rw [smallMap_descriptors]; decide) (by decide) hs h1 (by decide)
    h2 h3 rfl

end Wasabi.Allocator.Reuse
