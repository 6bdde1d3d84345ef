import Wasabi.Allocator.Safety

/-!
# The memory a map makes usable

What may be handed out is a property of the map alone: the addresses of its
conventional descriptors outside page zero. Initialisation turns it into free
blocks, one descriptor at a time, and an insertion leaves every header that is
already in the list as it is.
-/

set_option autoImplicit false

namespace Wasabi.Allocator.UsableMemory
open Wasabi.Rust Wasabi.ObjectMemory Wasabi.Tiling Wasabi.Uefi.MemoryMap
open Wasabi.Allocator.FirstFit Wasabi.Allocator.Provide Wasabi.Allocator.BlockList
open Wasabi.Allocator.Registration Wasabi.Allocator.Runs Wasabi.Allocator.Safety

def bytesOf (d : EfiMemoryDescriptor) : Set ℕ := Set.Ico (range d).1 (range d).2

/-- The addresses of a descriptor outside page zero. -/
def usableBytes (d : EfiMemoryDescriptor) : Set ℕ := bytesOf d \ Set.Ico 0 4096

def usableStart (d : EfiMemoryDescriptor) : ℕ := max d.physicalStart 4096

def usableSize (d : EfiMemoryDescriptor) : ℕ := (range d).2-usableStart d

theorem usableBytes_eq (d : EfiMemoryDescriptor) :
    usableBytes d = Set.Ico (usableStart d) (usableStart d+usableSize d) := by
  ext x
  simp only [usableBytes, bytesOf, usableStart, usableSize, range, Set.mem_sdiff, Set.mem_Ico]
  omega

def usableBlock (d : EfiMemoryDescriptor) : Block := ⟨usableStart d,usableSize d,false⟩

/-- One free block for each usable range above 4096 bytes, last one first. -/
def usableBlocks (ds : List EfiMemoryDescriptor) : List Block :=
  (((conventional ds).filter (fun d => 4096 < usableSize d)).map usableBlock).reverse

def blockBytes (b : Block) : Set ℕ := Set.Ico b.addr (b.addr+b.size)

theorem usable_eq (d : EfiMemoryDescriptor) (ha : 4096 ∣ d.physicalStart)
    (hs : 4096 < (usable d).2 ∨ 4096 < usableSize d) :
    usable d = (usableStart d,usableSize d) := by
  unfold usable trimmedStart trimmedSize saturatingSub usableSize usableStart range at *
  simp only at *
  split_ifs at * with h0
  · exact Prod.ext (by simp only; omega) (by simp only; omega)
  · exact Prod.ext (by simp only; omega) (by simp only; omega)

theorem regionOf_usable (d : EfiMemoryDescriptor) (ha : 4096 ∣ d.physicalStart)
    (hb : (range d).2 < 2^64) :
    (regionOf d).map freeBlock = if 4096 < usableSize d then some (usableBlock d) else none := by
  rw [regionOf, usableRange_ok d hb]
  by_cases hs : (usable d).2 ≤ 4096
  · have hn : ¬ 4096 < usableSize d := by
      intro h
      rw [usable_eq d ha (Or.inr h)] at hs
      exact absurd hs (by omega)
    rw [if_pos hs, if_neg hn]
    rfl
  · have he := usable_eq d ha (Or.inl (by omega))
    rw [he] at hs ⊢
    rw [if_neg hs, if_pos (by simpa using hs)]
    simp [freeBlock, usableBlock]

theorem registered_usable (ds : List EfiMemoryDescriptor) (hc : ConventionalContract ds) :
    (registeredRegions ds).map freeBlock = usableBlocks ds := by
  rw [registeredRegions, usableBlocks, List.map_reverse, List.map_filterMap,
    ← List.filterMap_eq_map, List.filterMap_filter]
  congr 1
  apply List.filterMap_congr
  intro d hd
  rw [regionOf_usable d (hc.aligned d hd) (hc.below d hd)]
  simp

/-- Registering a descriptor writes no byte outside the new header. -/
theorem add_keeps (heap heap' : Heap) (d : EfiMemoryDescriptor)
    (h : addFreeFromDescriptor heap d = .ok heap') (x : ℕ)
    (hx : ∀ start size, usableRange d = .ok (some (start,size)) →
      x < start ∨ start+headerSize ≤ x) : heap'.memory x = heap.memory x := by
  obtain ⟨res,hu,h⟩ := bind_ok _ _ _ h
  cases res with
  | none =>
    cases h
    rfl
  | some p =>
    have hout := hx p.1 p.2 hu
    simp only [setNextHeader, setIsAllocated, setSize, readHeader, newFromAddr, load_writeHeader,
      deref_some, ok_bind, pure_eq] at h
    cases h
    simp only [writeHeader_outside _ _ _ _ hout]

theorem register_keeps (ds : List EfiMemoryDescriptor) (hc : ConventionalContract ds)
    (heap heap' : Heap) (h : ds.foldlM registerStep heap = .ok heap') (x : ℕ)
    (hx : ∀ r ∈ registeredRegions ds, x < r.1 ∨ r.1+headerSize ≤ x) :
    heap'.memory x = heap.memory x := by
  induction ds generalizing heap with
  | nil =>
    cases h
    rfl
  | cons d ds ih =>
    have hds := contract_sublist _ ds (List.sublist_cons_self d ds) hc
    rw [registered_cons] at hx
    obtain ⟨heap1,h1,h2⟩ := bind_ok _ _ _ h
    rw [ih hds heap1 h2 (fun r hr => hx r (List.mem_append_left _ hr))]
    unfold registerStep at h1
    split_ifs at h1 with hty
    · cases h1
      rfl
    · apply add_keeps heap heap1 d h1
      intro start size hu
      have hreg : regionOf d = some (start,start+size) := by rw [regionOf, hu]
      refine hx (start,start+size) (List.mem_append_right _ ?_)
      rw [registered_some d (not_not.mp hty) _ hreg]
      exact List.mem_cons_self

theorem contract_split (ds es : List EfiMemoryDescriptor) (hc : ConventionalContract (ds++es)) :
    ConventionalContract ds ∧ ConventionalContract es :=
  ⟨contract_sublist _ _ (List.sublist_append_left ds es) hc,
    contract_sublist _ _ (List.sublist_append_right ds es) hc⟩

theorem registered_append (ds es : List EfiMemoryDescriptor) :
    registeredRegions (ds++es) = registeredRegions es++registeredRegions ds := by
  rw [registeredRegions, registeredRegions, registeredRegions, ← List.reverse_append,
    ← List.filterMap_append, conventional, conventional, conventional, ← List.filter_append]

/-- The loop after the descriptors `ds`, and what the rest of it leaves. -/
theorem register_prefix (ds es : List EfiMemoryDescriptor) (hc : ConventionalContract (ds++es))
    (memory : HeaderMemory) : ∃ heap heap', ds.foldlM registerStep ⟨memory,none⟩ = .ok heap ∧
      es.foldlM registerStep heap = .ok heap' ∧
      Chain heap.memory heap.firstHeader (usableBlocks ds) ∧
      Chain heap'.memory heap'.firstHeader (usableBlocks (ds++es)) ∧
      ∀ b ∈ usableBlocks ds, load headerSize heap'.memory b.addr =
        load headerSize heap.memory b.addr := by
  obtain ⟨hds,hes⟩ := contract_split ds es hc
  have hap := registered_apart _ hc
  rw [registered_append, List.pairwise_append] at hap
  obtain ⟨heap,h1,hchain⟩ := register_all ds hds ⟨memory,none⟩ [] (by simp) (by simp) rfl
  rw [List.append_nil] at hchain
  obtain ⟨heap',h2,hchain'⟩ := register_all es hes heap _
    (fun r hr => (registered_ok ds hds r hr).1) (fun r hr s hs => hap.2.2 s hs r hr) hchain
  rw [← registered_append, registered_usable _ hc] at hchain'
  refine ⟨heap,heap',h1,h2,registered_usable ds hds ▸ hchain,hchain',?_⟩
  intro b hb
  rw [← registered_usable ds hds] at hb
  obtain ⟨r,hr,rfl⟩ := List.mem_map.mp hb
  have hr1 := (registered_ok ds hds r hr).1.room
  apply load_congr headerSize (by decide)
  intro x h3 h4
  apply register_keeps es hes heap heap' h2
  intro s hs
  have hs1 := (registered_ok es hes s hs).1.room
  have hsr := hap.2.2 s hs r hr
  have hH : headerSize = 32 := rfl
  have haddr : (freeBlock r).addr = r.1 := rfl
  unfold Apart at hsr
  omega

theorem usableBlocks_mem (ds : List EfiMemoryDescriptor) (b : Block) (hb : b ∈ usableBlocks ds) :
    ∃ d ∈ conventional ds, b.isAllocated = false ∧ blockBytes b = usableBytes d := by
  obtain ⟨d,hd,rfl⟩ := List.mem_map.mp (List.mem_reverse.mp hb)
  exact ⟨d,List.mem_of_mem_filter hd,rfl,(usableBytes_eq d).symm⟩

theorem usableBlocks_disjoint (ds : List EfiMemoryDescriptor) (hc : ConventionalContract ds) :
    (usableBlocks ds).Pairwise (fun b c => Disjoint (blockBytes b) (blockBytes c)) := by
  rw [usableBlocks, List.pairwise_reverse, List.pairwise_map]
  refine (hc.disjoint.sublist List.filter_sublist).imp ?_
  intro d e hde
  rw [disjoint_comm]
  have hd : blockBytes (usableBlock d) = usableBytes d := (usableBytes_eq d).symm
  have he : blockBytes (usableBlock e) = usableBytes e := (usableBytes_eq e).symm
  rw [hd, he]
  exact hde.mono Set.sdiff_subset Set.sdiff_subset

/-- Initialisation registers the usable memory of the map and no other byte,
and no insertion changes a header that an earlier one put into the list. -/
theorem init_registers_usable (map : MemoryMapHolder) (hmap : UefiContract map)
    (hconv : ConventionalContract (descriptors map)) (memory : HeaderMemory) (fuel : ℕ)
    (hf : (descriptors map).length < fuel) :
    ∃ heap, initWithMmap fuel ⟨memory,none⟩ map = .ok heap ∧
      Chain heap.memory heap.firstHeader (usableBlocks (descriptors map)) ∧
      (∀ b ∈ usableBlocks (descriptors map), ∃ d ∈ conventional (descriptors map),
        b.isAllocated = false ∧ blockBytes b = usableBytes d) ∧
      (usableBlocks (descriptors map)).Pairwise
        (fun b c => Disjoint (blockBytes b) (blockBytes c)) ∧
      (∀ b ∈ usableBlocks (descriptors map), Disjoint (blockBytes b) (Set.Ico 0 4096)) ∧
      (∀ e ∈ descriptors map, e.memoryType ≠ .conventionalMemory →
        (∀ d ∈ conventional (descriptors map), Disjoint (bytesOf e) (bytesOf d)) →
        ∀ b ∈ usableBlocks (descriptors map), Disjoint (blockBytes b) (bytesOf e)) ∧
      ∀ k, ∃ heapK, ((descriptors map).take k).foldlM registerStep ⟨memory,none⟩ = .ok heapK ∧
        ((descriptors map).drop k).foldlM registerStep heapK = .ok heap ∧
        Chain heapK.memory heapK.firstHeader (usableBlocks ((descriptors map).take k)) ∧
        ∀ b ∈ usableBlocks ((descriptors map).take k),
          load headerSize heap.memory b.addr = load headerSize heapK.memory b.addr := by
  obtain ⟨heap,hinit,hchain⟩ := init_registers map _ (contract_shows map hmap) hconv memory fuel hf
  rw [registered_usable _ hconv] at hchain
  have hfold := hinit
  rw [initWithMmap, forEach_shown map _ (contract_shows map hmap) _ fuel hf] at hfold
  refine ⟨heap,hinit,hchain,usableBlocks_mem _,usableBlocks_disjoint _ hconv,?_,?_,?_⟩
  · intro b hb
    obtain ⟨d,-,-,hbd⟩ := usableBlocks_mem _ b hb
    rw [hbd]
    exact Set.disjoint_sdiff_left
  · intro e _ _ hed b hb
    obtain ⟨d,hd,-,hbd⟩ := usableBlocks_mem _ b hb
    rw [hbd]
    exact (hed d hd).symm.mono_left Set.sdiff_subset
  · intro k
    have hsplit : (descriptors map).take k++(descriptors map).drop k = descriptors map :=
      List.take_append_drop k _
    obtain ⟨heapK,heap',h1,h2,hchainK,-,hload⟩ := register_prefix _ _ (hsplit.symm ▸ hconv) memory
    have hsame : (descriptors map).foldlM registerStep ⟨memory,none⟩ = .ok heap' := by
      rw [← hsplit, List.foldlM_append, h1]
      exact h2
    obtain rfl := Except.ok.inj (hsame.symm.trans hfold)
    exact ⟨heapK,h1,h2,hchainK,hload⟩

theorem init_registers_usable_mixed :
    ∃ heap, initWithMmap 20 ⟨fun _ => .raw 0,none⟩ mixedMap = .ok heap ∧
      Chain heap.memory heap.firstHeader (usableBlocks (descriptors mixedMap)) ∧
      (∀ b ∈ usableBlocks (descriptors mixedMap), ∃ d ∈ conventional (descriptors mixedMap),
        b.isAllocated = false ∧ blockBytes b = usableBytes d) ∧
      (usableBlocks (descriptors mixedMap)).Pairwise
        (fun b c => Disjoint (blockBytes b) (blockBytes c)) ∧
      (∀ b ∈ usableBlocks (descriptors mixedMap), Disjoint (blockBytes b) (Set.Ico 0 4096)) ∧
      (∀ e ∈ descriptors mixedMap, e.memoryType ≠ .conventionalMemory →
        (∀ d ∈ conventional (descriptors mixedMap), Disjoint (bytesOf e) (bytesOf d)) →
        ∀ b ∈ usableBlocks (descriptors mixedMap), Disjoint (blockBytes b) (bytesOf e)) ∧
      ∀ k, ∃ heapK,
        ((descriptors mixedMap).take k).foldlM registerStep ⟨fun _ => .raw 0,none⟩ = .ok heapK ∧
        ((descriptors mixedMap).drop k).foldlM registerStep heapK = .ok heap ∧
        Chain heapK.memory heapK.firstHeader (usableBlocks ((descriptors mixedMap).take k)) ∧
        ∀ b ∈ usableBlocks ((descriptors mixedMap).take k),
          load headerSize heap.memory b.addr = load headerSize heapK.memory b.addr :=
  init_registers_usable mixedMap mixedMap_contract mixedMap_conventional _ 20
    (by rw [mixedMap_descriptors]; decide)

-- Both conventional descriptors that are large enough contribute a block.
example : usableBlocks mixedDescriptors =
    [⟨0x100000,0x10000,false⟩,⟨0x1000,0x2000,false⟩] := by decide

end Wasabi.Allocator.UsableMemory
