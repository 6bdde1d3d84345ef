import Wasabi.Allocator.Runs

/-!
# Memory outside of the heap

All headers are in the registered regions. Neither the registration of the
memory map nor a request touches any other byte.
-/

set_option autoImplicit false

namespace Wasabi.Allocator.Outside
open Wasabi.Rust Wasabi.ObjectMemory Wasabi.Tiling Wasabi.Uefi.MemoryMap
open Wasabi.Allocator.FirstFit Wasabi.Allocator.Provide Wasabi.Allocator.BlockList
open Wasabi.Allocator.Registration Wasabi.Allocator.Runs

/-- An address in none of the regions. -/
def Unregistered (rs : List (ℕ × ℕ)) (x : ℕ) : Prop := ∀ r ∈ rs, x < r.1 ∨ r.2 ≤ x

theorem unregistered_zero (ds : List EfiMemoryDescriptor) (h : ConventionalContract ds) (x : ℕ)
    (hx : x < 4096) : Unregistered (registeredRegions ds) x := by
  intro r hr
  have hpage := (registered_ok ds h r hr).1.page
  exact Or.inl (by omega)

/-- What is inside a region is no address outside of all. -/
theorem unregistered_inside (rs : List (ℕ × ℕ)) (x : ℕ) (hx : Unregistered rs x) (a : Allocation)
    (ha : ∃ r ∈ rs, r.1 ≤ a.ptr ∧ a.ptr+a.layout.size ≤ r.2) : x ∉ userBytes a := by
  obtain ⟨r,hr,h1,h2⟩ := ha
  rintro ⟨hx1,hx2⟩
  have hout := hx r hr
  omega

theorem add_outside (heap heap' : Heap) (d : EfiMemoryDescriptor) (hb : (range d).2 < 2^64)
    (ha : 4096 ∣ d.physicalStart) (h : addFreeFromDescriptor heap d = .ok heap') (x : ℕ)
    (hx : ∀ r, regionOf d = some r → x < r.1 ∨ r.2 ≤ x) : heap'.memory x = heap.memory x := by
  cases hreg : regionOf d with
  | none =>
    rw [addFreeFromDescriptor, regionOf_none d hb hreg] at h
    cases h
    rfl
  | some r =>
    obtain ⟨hok,-,-,hu⟩ := regionOf_some d ha hb r hreg
    have hroom := hok.room
    have hout := hx r hreg
    simp only [addFreeFromDescriptor, hu, ok_bind, setNextHeader, setIsAllocated, setSize,
      readHeader, newFromAddr, load_writeHeader, deref_some, pure_eq] at h
    cases h
    have hfar : x < r.1 ∨ r.1+headerSize ≤ x := by
      unfold headerSize
      omega
    simp only [writeHeader_outside _ _ _ _ hfar]

/-- By induction on the descriptors that are left to register. -/
theorem register_outside (ds : List EfiMemoryDescriptor) (hc : ConventionalContract ds)
    (heap heap' : Heap) (h : ds.foldlM registerStep heap = .ok heap') (x : ℕ)
    (hx : Unregistered (registeredRegions ds) x) : heap'.memory x = heap.memory x := by
  induction ds generalizing heap with
  | nil =>
    cases h
    rfl
  | cons d ds ih =>
    have hds := contract_sublist _ ds (List.sublist_cons_self d ds) hc
    have hd := contract_sublist _ [d] (List.singleton_sublist.mpr List.mem_cons_self) hc
    rw [registered_cons] at hx
    rw [List.foldlM_cons] at h
    cases hstep : registerStep heap d with
    | error e =>
      rw [hstep] at h
      cases h
    | ok heap1 =>
      rw [hstep] at h
      rw [ih hds heap1 h (fun r hr => hx r (List.mem_append_left _ hr))]
      by_cases hty : d.memoryType = .conventionalMemory
      · have hmem : d ∈ conventional [d] := by simp [conventional, hty]
        rw [registerStep, if_neg (by simpa)] at hstep
        apply add_outside heap heap1 d (hd.below d hmem) (hd.aligned d hmem) hstep x
        intro r hr
        apply hx r
        rw [registered_some d hty r hr]
        exact List.mem_append_right _ List.mem_cons_self
      · rw [registerStep, if_pos hty] at hstep
        cases hstep
        rfl

theorem boot_outside (map : MemoryMapHolder) (ds : List EfiMemoryDescriptor) (hs : Shows map ds)
    (hc : ConventionalContract ds) (memory : HeaderMemory) (fuel : ℕ) (hf : ds.length < fuel)
    (s : Client) (h : boot fuel map memory = .ok s) (x : ℕ)
    (hx : Unregistered (registeredRegions ds) x) : s.heap.memory x = memory x := by
  rw [boot, initWithMmap, forEach_shown map ds hs _ fuel hf] at h
  cases hreg : ds.foldlM registerStep ⟨memory,none⟩ with
  | error e =>
    change (ds.foldlM registerStep ⟨memory,none⟩ >>= _) = _ at h
    rw [hreg] at h
    cases h
  | ok heap =>
    change (ds.foldlM registerStep ⟨memory,none⟩ >>= _) = _ at h
    rw [hreg] at h
    cases h
    exact register_outside ds hc _ heap hreg x hx

theorem alloc_outside (rs : List (ℕ × ℕ)) (hrs : rs.Pairwise Apart) (s : Client) (bs : List Block)
    (hi : Inv rs s bs) (fuel : ℕ) (hf : bs.length ≤ fuel) (layout : Layout) (heap' : Heap) (p : ℕ)
    (h : allocWithOptions fuel s.heap layout = .ok (heap',p)) (x : ℕ) (hx : Unregistered rs x) :
    heap'.memory x = s.heap.memory x := by
  by_cases hroom : 0 < layout.size ∧ Room bs layout
  · obtain ⟨hpos,c,hc,hadm⟩ := hroom
    cases hff : firstFit (requestSize layout.size) (requestAlign layout.align) bs with
    | none => exact absurd hadm ((firstFit_none _ _ bs).mp hff c hc)
    | some r =>
      obtain ⟨pre,b,post,rfl,hpre,ha,-,-⟩ := (firstFit_some _ _ bs r.1 r.2).mp hff
      obtain ⟨m',hrun,-,hout⟩ := alloc_granted layout _ pre post b fuel _ hpos hf hi.chain
        hi.granular (inv_separate rs hrs s _ hi) hpre ha
      rw [allocWithOptions, hrun] at h
      cases h
      obtain ⟨q,hq,h1,-,h3⟩ := tilesAll_mem _ _ rs _ hi.tiles b (by simp)
      have hfar := hx q hq
      exact hout x (by omega)
  · rw [alloc_full rs s bs hi fuel hf layout hroom] at h
    cases h
    rfl

end Wasabi.Allocator.Outside
