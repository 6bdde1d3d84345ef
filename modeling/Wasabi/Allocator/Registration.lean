import Mathlib
import Wasabi.Allocator.BlockList

/-!
# Registering the conventional regions of a memory map

The regions are registered in front of the list, so they end up in reverse
descriptor order, one free block each. The contract on the map concerns its
conventional descriptors only; all others are skipped.
-/

set_option autoImplicit false

namespace Wasabi.Allocator.Registration
open Wasabi.Rust Wasabi.Tiling Wasabi.Uefi.MemoryMap
open Wasabi.Allocator.FirstFit Wasabi.Allocator.Provide Wasabi.Allocator.BlockList

/-- First address of a descriptor and the first one behind it. -/
def range (d : EfiMemoryDescriptor) : ℕ × ℕ :=
  (d.physicalStart,d.physicalStart+d.numberOfPages*4096)

def conventional (ds : List EfiMemoryDescriptor) : List EfiMemoryDescriptor :=
  ds.filter (fun d => d.memoryType = .conventionalMemory)

/-- Page-aligned, pairwise disjoint and ending below `2^64`. -/
structure ConventionalContract (ds : List EfiMemoryDescriptor) : Prop where
  aligned : ∀ d ∈ conventional ds, 4096 ∣ d.physicalStart
  below : ∀ d ∈ conventional ds, (range d).2 < 2^64
  disjoint : (conventional ds).Pairwise
    (fun d e => Disjoint (Set.Ico (range d).1 (range d).2) (Set.Ico (range e).1 (range e).2))

/-- The region that a descriptor contributes, as its two ends. -/
def regionOf (d : EfiMemoryDescriptor) : Option (ℕ × ℕ) :=
  match usableRange d with
  | .ok (some (start,size)) => some (start,start+size)
  | _ => none

def registeredRegions (ds : List EfiMemoryDescriptor) : List (ℕ × ℕ) :=
  ((conventional ds).filterMap regionOf).reverse

def freeBlock (r : ℕ × ℕ) : Block := ⟨r.1,r.2-r.1,false⟩

structure RegionOk (r : ℕ × ℕ) : Prop where
  start : 4096 ∣ r.1
  stop : 4096 ∣ r.2
  page : 4096 ≤ r.1
  room : r.1+4096 < r.2
  bound : r.2 < 2^64

/-- What is left of a descriptor after page zero is cut off. -/
def usable (d : EfiMemoryDescriptor) : ℕ × ℕ :=
  (trimmedStart d.physicalStart,trimmedSize d.physicalStart (d.numberOfPages*4096))

theorem usableRange_ok (d : EfiMemoryDescriptor) (hb : (range d).2 < 2^64) :
    usableRange d = .ok (if (usable d).2 ≤ 4096 then none else some (usable d)) := by
  have hm : d.numberOfPages*4096 < 2^64 := lt_of_le_of_lt (Nat.le_add_left _ _) hb
  rw [usableRange, checkedMul_ok _ _ hm, ok_bind]
  change (if (usable d).2 ≤ 4096 then _ else _) = _
  split_ifs
  · rfl
  · rfl

theorem usable_inside (d : EfiMemoryDescriptor) (ha : 4096 ∣ d.physicalStart)
    (hb : (range d).2 < 2^64) (hs : 4096 < (usable d).2) :
    RegionOk ((usable d).1,(usable d).1+(usable d).2) ∧ (range d).1 ≤ (usable d).1 ∧
      (usable d).1+(usable d).2 ≤ (range d).2 := by
  unfold usable trimmedStart trimmedSize saturatingSub range at *
  simp only at *
  split_ifs at * with h0
  · exact ⟨⟨by omega,by omega,by omega,by omega,by omega⟩,by omega,by omega⟩
  · exact ⟨⟨by omega,by omega,by omega,by omega,by omega⟩,by omega,by omega⟩

/-- A registered region lies inside its descriptor and off page zero. -/
theorem regionOf_some (d : EfiMemoryDescriptor) (ha : 4096 ∣ d.physicalStart)
    (hb : (range d).2 < 2^64) (r : ℕ × ℕ) (h : regionOf d = some r) :
    RegionOk r ∧ (range d).1 ≤ r.1 ∧ r.2 ≤ (range d).2 ∧
      usableRange d = .ok (some (r.1,r.2-r.1)) := by
  have hu := usableRange_ok d hb
  rw [regionOf, hu] at h
  by_cases hs : (usable d).2 ≤ 4096
  · rw [if_pos hs] at h
    cases h
  · rw [if_neg hs] at h hu
    cases h
    obtain ⟨h1,h2,h3⟩ := usable_inside d ha hb (by omega)
    refine ⟨h1,h2,h3,?_⟩
    rw [hu, Nat.add_sub_cancel_left]
    rfl

theorem regionOf_none (d : EfiMemoryDescriptor) (hb : (range d).2 < 2^64)
    (h : regionOf d = none) : usableRange d = .ok none := by
  have hu := usableRange_ok d hb
  rw [regionOf, hu] at h
  by_cases hs : (usable d).2 ≤ 4096
  · rw [hu, if_pos hs]
  · rw [if_neg hs] at h
    cases h

/-- Regions of disjoint descriptors are apart: both are non-empty. -/
theorem regions_apart (d e : EfiMemoryDescriptor) (r s : ℕ × ℕ) (hr : RegionOk r) (hs : RegionOk s)
    (hr1 : (range d).1 ≤ r.1) (hr2 : r.2 ≤ (range d).2)
    (hs1 : (range e).1 ≤ s.1) (hs2 : s.2 ≤ (range e).2)
    (hd : Disjoint (Set.Ico (range d).1 (range d).2) (Set.Ico (range e).1 (range e).2)) :
    Apart r s := by
  have hsub := hd.mono (Set.Ico_subset_Ico hr1 hr2) (Set.Ico_subset_Ico hs1 hs2)
  have hm := Set.Ico_disjoint_Ico.mp hsub
  have h1 := hr.room
  have h2 := hs.room
  unfold Apart
  omega

theorem contract_sublist (ds es : List EfiMemoryDescriptor) (hs : es.Sublist ds)
    (h : ConventionalContract ds) : ConventionalContract es := by
  have hsub : (conventional es).Sublist (conventional ds) := hs.filter _
  exact ⟨fun e he => h.aligned e (hsub.subset he),fun e he => h.below e (hsub.subset he),
    h.disjoint.sublist hsub⟩

theorem registered_ok (ds : List EfiMemoryDescriptor) (h : ConventionalContract ds) (r : ℕ × ℕ)
    (hr : r ∈ registeredRegions ds) : RegionOk r ∧
      ∃ d ∈ conventional ds, regionOf d = some r ∧ (range d).1 ≤ r.1 ∧ r.2 ≤ (range d).2 := by
  obtain ⟨d,hd,hdr⟩ := List.mem_filterMap.mp (List.mem_reverse.mp hr)
  obtain ⟨h1,h2,h3,-⟩ := regionOf_some d (h.aligned d hd) (h.below d hd) r hdr
  exact ⟨h1,d,hd,hdr,h2,h3⟩

theorem registered_apart (ds : List EfiMemoryDescriptor) (h : ConventionalContract ds) :
    (registeredRegions ds).Pairwise Apart := by
  rw [registeredRegions, List.pairwise_reverse]
  rw [List.pairwise_filterMap]
  apply List.Pairwise.imp_of_mem _ h.disjoint
  intro d e hd he hde r hr s hs
  obtain ⟨h1,h2,h3,-⟩ := regionOf_some d (h.aligned d hd) (h.below d hd) r hr
  obtain ⟨h4,h5,h6,-⟩ := regionOf_some e (h.aligned e he) (h.below e he) s hs
  exact apart_symm _ _ (regions_apart d e r s h1 h4 h2 h3 h5 h6 hde)

def registerStep (heap : Heap) (e : EfiMemoryDescriptor) : Eval Heap :=
  if e.memoryType ≠ .conventionalMemory then pure heap else addFreeFromDescriptor heap e

theorem registered_cons (d : EfiMemoryDescriptor) (ds : List EfiMemoryDescriptor) :
    registeredRegions (d::ds) = registeredRegions ds++registeredRegions [d] := by
  rw [registeredRegions, registeredRegions, registeredRegions, ← List.reverse_append,
    ← List.filterMap_append, conventional, conventional, conventional, ← List.filter_append,
    List.singleton_append]

theorem registered_none (d : EfiMemoryDescriptor)
    (h : d.memoryType ≠ .conventionalMemory ∨ regionOf d = none) : registeredRegions [d] = [] := by
  rcases h with h | h
  · simp [registeredRegions, conventional, h]
  · by_cases hty : d.memoryType = .conventionalMemory
    · simp [registeredRegions, conventional, hty, h]
    · simp [registeredRegions, conventional, hty]

theorem registered_some (d : EfiMemoryDescriptor) (hty : d.memoryType = .conventionalMemory)
    (r : ℕ × ℕ) (h : regionOf d = some r) : registeredRegions [d] = [r] := by
  simp [registeredRegions, conventional, hty, h]

/-- One descriptor puts at most one free block in front of the list. -/
theorem register_step (d : EfiMemoryDescriptor) (hc : ConventionalContract [d]) (heap : Heap)
    (rs : List (ℕ × ℕ)) (hrs : ∀ r ∈ rs, RegionOk r)
    (hsep : ∀ r ∈ rs, ∀ s ∈ registeredRegions [d], Apart s r)
    (hchain : Chain heap.memory heap.firstHeader (rs.map freeBlock)) :
    ∃ heap', registerStep heap d = .ok heap' ∧
      Chain heap'.memory heap'.firstHeader ((registeredRegions [d]++rs).map freeBlock) := by
  by_cases hty : d.memoryType = .conventionalMemory
  · have hd : d ∈ conventional [d] := by simp [conventional, hty]
    have hstep : registerStep heap d = addFreeFromDescriptor heap d := if_neg (by simpa)
    cases hreg : regionOf d with
    | none =>
      refine ⟨heap,?_,?_⟩
      · rw [hstep, addFreeFromDescriptor, regionOf_none d (hc.below d hd) hreg]
        rfl
      · rw [registered_none d (Or.inr hreg)]
        exact hchain
    | some r =>
      rw [registered_some d hty r hreg] at hsep ⊢
      obtain ⟨hr,-,-,hu⟩ := regionOf_some d (hc.aligned d hd) (hc.below d hd) r hreg
      have hroom := hr.room
      have hrest : ∀ c ∈ rs.map freeBlock, headerSize ≤ c.size ∧
          Apart (r.1,r.1+(r.2-r.1)) (c.addr,c.stop) := by
        intro c hcm
        obtain ⟨q,hq,rfl⟩ := List.mem_map.mp hcm
        have hqr := (hrs q hq).room
        have ha := hsep q hq r List.mem_cons_self
        unfold Apart at *
        simp only [freeBlock, Block.stop, headerSize]
        omega
      obtain ⟨heap',hadd,hchain'⟩ := register_front heap _ d r.1 (r.2-r.1) hu hchain
        (by unfold headerSize; omega) (fun c hcm => (hrest c hcm).1) (fun c hcm => (hrest c hcm).2)
      exact ⟨heap',hstep.trans hadd,hchain'⟩
  · refine ⟨heap,if_pos hty,?_⟩
    rw [registered_none d (Or.inl hty)]
    exact hchain

/-- Registration puts the free blocks of the remaining descriptors in front
of the regions that are already in the list. -/
theorem register_all (ds : List EfiMemoryDescriptor) (hc : ConventionalContract ds)
    (heap : Heap) (rs : List (ℕ × ℕ)) (hrs : ∀ r ∈ rs, RegionOk r)
    (hsep : ∀ r ∈ rs, ∀ s ∈ registeredRegions ds, Apart s r)
    (hchain : Chain heap.memory heap.firstHeader (rs.map freeBlock)) :
    ∃ heap', ds.foldlM registerStep heap = .ok heap' ∧
      Chain heap'.memory heap'.firstHeader ((registeredRegions ds++rs).map freeBlock) := by
  induction ds generalizing heap rs with
  | nil => exact ⟨heap,rfl,hchain⟩
  | cons d ds ih =>
    have hds := contract_sublist _ ds (List.sublist_cons_self d ds) hc
    have hd := contract_sublist _ [d] (List.singleton_sublist.mpr List.mem_cons_self) hc
    have hap := registered_apart (d::ds) hc
    rw [registered_cons] at hsep hap ⊢
    obtain ⟨heap1,h1,hchain1⟩ := register_step d hd heap rs hrs
      (fun r hr s hs => hsep r hr s (List.mem_append_right _ hs)) hchain
    have hrs1 : ∀ r ∈ registeredRegions [d]++rs, RegionOk r := by
      intro r hr
      rcases List.mem_append.mp hr with hr | hr
      · exact (registered_ok [d] hd r hr).1
      · exact hrs r hr
    have hsep1 : ∀ r ∈ registeredRegions [d]++rs, ∀ s ∈ registeredRegions ds, Apart s r := by
      intro r hr s hs
      rcases List.mem_append.mp hr with hr | hr
      · exact (List.pairwise_append.mp hap).2.2 s hs r hr
      · exact hsep r hr s (List.mem_append_left _ hs)
    rw [List.foldlM_cons, h1, List.append_assoc]
    exact ih hds heap1 _ hrs1 hsep1 hchain1

/-- Initialising an empty allocator registers exactly the regions of the map. -/
theorem init_registers (map : MemoryMapHolder) (ds : List EfiMemoryDescriptor) (hs : Shows map ds)
    (hc : ConventionalContract ds) (memory : HeaderMemory) (fuel : ℕ) (hf : ds.length < fuel) :
    ∃ heap, initWithMmap fuel ⟨memory,none⟩ map = .ok heap ∧
      Chain heap.memory heap.firstHeader ((registeredRegions ds).map freeBlock) := by
  have h := register_all ds hc ⟨memory,none⟩ [] (by simp) (by simp) rfl
  rw [List.append_nil] at h
  rw [initWithMmap, forEach_shown map ds hs _ fuel hf]
  exact h

end Wasabi.Allocator.Registration
