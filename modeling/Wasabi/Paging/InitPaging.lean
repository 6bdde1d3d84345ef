import Wasabi.Paging.Refinement
import Wasabi.Allocator.Registration
import Wasabi.Uefi.Exit

/-!
# The identity mapping installed at boot

The end of memory is folded over the map, and everything below it is mapped to
itself. The regions of the allocator come from the same map, so the heap and
the new page tables in it stay where they are after the switch.
-/

set_option autoImplicit false

namespace Wasabi.Paging.InitPaging
open Wasabi.Rust Wasabi.WordBits Wasabi.Outcome Wasabi.Uefi.MemoryMap Wasabi.Uefi.Encoding
open Wasabi.Uefi.Exit (wideMap wideMap_shows wideMap_descriptors wideMap_contract)
open Wasabi.Paging.PageTable Wasabi.Paging.Mapping Wasabi.Paging.Refinement
open Wasabi.Allocator.FirstFit Wasabi.Allocator.Registration

/-- The types whose memory the kernel may touch after the switch. -/
def mapped : EfiMemoryType → Bool
  | .conventionalMemory => true
  | .loadedCode => true
  | .loadedData => true
  | _ => false

/-- The body of the loop in `init_paging`. -/
def extend (endOfMem : ℕ) (e : EfiMemoryDescriptor) : Eval ℕ :=
  if mapped e.memoryType then do
    let size ← checkedMul e.numberOfPages pageSize
    let stop ← checkedAdd e.physicalStart size
    pure (max endOfMem stop)
  else pure endOfMem

/-- `Result::expect`. -/
def expect {α : Type} (x : Build α) (message : String) : Build α := fun m => do
  match ← x m with
  | (.ok a,m) => pure (.ok a,m)
  | (.error e,_) => .error (.panic (expectMessage message e))

/-- Returns the address that `write_cr3` is given. -/
def initPaging (boxNew : TableMemory → Option ℕ) (fuel : ℕ) (memoryMap : MemoryMapHolder) :
    Build ℕ := do
  let table ← newPml4 boxNew
  let endOfMem ← lift (forEach extend fuel memoryMap.iter 0x100000000)
  expect (createMapping boxNew table 0 endOfMem 0 .readWriteKernel)
    "Failed to create initial page mapping"
  pure table

/-- The physical address behind a virtual one. -/
def translate (m : TableMemory) (cr3 x : ℕ) : Option ℕ :=
  (walk m cr3 (alignDown 4096 x)).map (fun r => r.1+x%4096)

/-- Aligned descriptors that end where the addresses of four levels do, or below. -/
def LowerHalf (ds : List EfiMemoryDescriptor) : Prop :=
  ∀ d ∈ ds, 4096 ∣ d.physicalStart ∧ (range d).2 ≤ 2^48

def extended (n : ℕ) (d : EfiMemoryDescriptor) : ℕ :=
  if mapped d.memoryType then max n (range d).2 else n

/-- What the fold over the map computes. -/
def endOfMem (ds : List EfiMemoryDescriptor) (start : ℕ) : ℕ := ds.foldl extended start

theorem extend_ok (n : ℕ) (d : EfiMemoryDescriptor) (h : (range d).2 ≤ 2^48) :
    extend n d = .ok (extended n d) := by
  unfold range at h
  unfold extended range extend pageSize
  split_ifs with hm
  · rw [checkedMul_ok _ _ (by simp only at h; omega), ok_bind,
      checkedAdd_ok _ _ (by simp only at h; omega), ok_bind]
    rfl
  · rfl

theorem extend_all (ds : List EfiMemoryDescriptor) (h : LowerHalf ds) (n : ℕ) :
    ds.foldlM extend n = .ok (endOfMem ds n) := by
  induction ds generalizing n with
  | nil => rfl
  | cons d ds ih =>
    rw [List.foldlM_cons, extend_ok n d (h d (by simp)).2, ok_bind,
      ih (fun e he => h e (by simp [he]))]
    rfl

theorem endOfMem_ge (ds : List EfiMemoryDescriptor) (n : ℕ) : n ≤ endOfMem ds n := by
  induction ds generalizing n with
  | nil => exact le_rfl
  | cons d ds ih =>
    refine le_trans ?_ (ih _)
    unfold extended
    split_ifs
    · exact Nat.le_max_left _ _
    · exact le_rfl

theorem endOfMem_covers (ds : List EfiMemoryDescriptor) (n : ℕ) (d : EfiMemoryDescriptor)
    (hd : d ∈ ds) (hm : mapped d.memoryType = true) : (range d).2 ≤ endOfMem ds n := by
  induction ds generalizing n with
  | nil => cases hd
  | cons e ds ih =>
    rcases List.mem_cons.mp hd with rfl | hd
    · refine le_trans ?_ (endOfMem_ge ds _)
      rw [extended, if_pos hm]
      exact Nat.le_max_right _ _
    · exact ih _ hd

theorem endOfMem_bounds (ds : List EfiMemoryDescriptor) (h : LowerHalf ds) (n : ℕ)
    (hn : n ≤ 2^48) (ha : 4096 ∣ n) : endOfMem ds n ≤ 2^48 ∧ 4096 ∣ endOfMem ds n := by
  induction ds generalizing n with
  | nil => exact ⟨hn,ha⟩
  | cons d ds ih =>
    obtain ⟨hd1,hd2⟩ := h d (by simp)
    have hr : 4096 ∣ (range d).2 := by
      unfold range
      simp only
      omega
    apply ih (fun e he => h e (by simp [he]))
    · unfold extended
      split_ifs
      · exact max_le hn hd2
      · exact hn
    · unfold extended
      split_ifs
      · rcases max_choice n (range d).2 with hc | hc
        · rw [hc]
          exact ha
        · rw [hc]
          exact hr
      · exact ha

theorem expect_yields {α : Type} (permitted : Fault → Prop) (x : Build α) (message : String)
    (m : TableMemory) (post : α → TableMemory → Prop) (hx : Yields permitted x m post) :
    Yields permitted (expect x message) m post := by
  rcases hx with ⟨e,he,hx⟩ | ⟨a,m',hx,hp⟩
  · left
    refine ⟨e,he,?_⟩
    rw [expect, hx]
    rfl
  · right
    refine ⟨a,m',?_,hp⟩
    rw [expect, hx]
    rfl

/-- A registered region lies below the end of a conventional descriptor. -/
theorem registered_below (ds : List EfiMemoryDescriptor) (h : LowerHalf ds) (n : ℕ) (r : ℕ × ℕ)
    (hr : r ∈ registeredRegions ds) : r.2 ≤ endOfMem ds n := by
  obtain ⟨d,hd,hdr⟩ := List.mem_filterMap.mp (List.mem_reverse.mp hr)
  obtain ⟨hmem,hty⟩ := List.mem_filter.mp hd
  obtain ⟨ha,hb⟩ := h d hmem
  obtain ⟨-,-,hle,-⟩ := regionOf_some d ha (by omega) r hdr
  refine hle.trans (endOfMem_covers ds n d hmem ?_)
  rw [of_decide_eq_true hty]
  rfl

section Boot
variable (boxNew : TableMemory → Option ℕ) (hbox : FreshBoxes boxNew) (map : MemoryMapHolder)
  (ds : List EfiMemoryDescriptor) (hs : Shows map ds) (hds : LowerHalf ds) (fuel : ℕ)
  (hf : ds.length < fuel)
include hbox hs hds hf

theorem init_yields (m : TableMemory) : Yields (Exhausted boxNew m) (initPaging boxNew fuel map) m
    (fun cr3 m' => PageTree m m' cr3 ∧ Boxed boxNew m m' ∧ ∀ v, 4096 ∣ v → v < 2^48 →
      walk m' cr3 v = if v < endOfMem ds 0x100000000 then
        some (v,PageAttr.readWriteKernel.value) else none) := by
  obtain ⟨hle,hal⟩ := endOfMem_bounds ds hds 0x100000000 (by decide) (by decide)
  apply yields_bind _ _ _ _ _ _ (new_pml4 boxNew hbox m)
  rintro root m1 ⟨ht1,hb1,-,-,hw1⟩
  have hfold : lift (forEach extend fuel map.iter 0x100000000) m1 =
      .ok (.ok (endOfMem ds 0x100000000),m1) := by
    rw [lift, forEach_shown map ds hs extend fuel hf, extend_all ds hds]
    rfl
  have hcall : CallOk ⟨0,endOfMem ds 0x100000000,0,.readWriteKernel⟩ :=
    ⟨Nat.dvd_zero _,hal,Nat.dvd_zero _,hle,by simp only; omega⟩
  apply yields_bind _ _ _ _ (fun n m' => n = endOfMem ds 0x100000000 ∧ m' = m1) _
    (Or.inr ⟨_,m1,hfold,rfl,rfl⟩)
  rintro _ _ ⟨rfl,rfl⟩
  apply yields_bind _ _ _ _ _ _
    (expect_yields _ _ _ _ _ (call_mapping boxNew hbox m root _ ht1 _ hcall))
  rintro _ m2 ⟨ht2,hb2,hw2⟩
  apply yields_pure
  refine ⟨ht2,boxed_trans boxNew _ _ _ hb1 hb2,?_⟩
  intro v hv hv'
  rw [hw2 v hv hv', hw1 v]
  simp [Call.covers, Call.target]

end Boot

theorem translate_identity (m : TableMemory) (cr3 n x : ℕ) (hn : n ≤ 2^48) (ha : 4096 ∣ n)
    (hw : ∀ v, 4096 ∣ v → v < 2^48 → walk m cr3 v =
      if v < n then some (v,PageAttr.readWriteKernel.value) else none) (hx : x < n) :
    translate m cr3 x = some x := by
  have hle := alignDown_le 4096 x
  rw [translate, hw _ (alignDown_dvd 4096 x) (by omega), if_pos (by omega), Option.map_some,
    alignDown]
  have hmod := Nat.mod_le x 4096
  congr 1
  omega

/-- The tables at `cr3` map everything below `top` to itself, writable, and
nothing above. The memory that the kernel goes on using is among it: the
descriptors, the registered regions and the tables that are new since `m`. -/
structure IdentityMapped (ds : List EfiMemoryDescriptor) (m m' : TableMemory) (cr3 top : ℕ) :
    Prop where
  fourGiB : 0x100000000 ≤ top
  memory : ∀ d ∈ ds, mapped d.memoryType = true → (range d).2 ≤ top
  identity : ∀ v, 4096 ∣ v → v < 2^48 → walk m' cr3 v =
    if v < top then some (v,PageAttr.readWriteKernel.value) else none
  writable : ∀ v, 4096 ∣ v → v < top → writeWalk m' cr3 v = some v
  heap : ∀ r ∈ registeredRegions ds, ∀ x, r.1 ≤ x → x < r.2 → translate m' cr3 x = some x
  tables : ∀ a, m' a ≠ none → m a = none → ∀ x, a ≤ x → x < a+4096 → translate m' cr3 x = some x

/-- `init_paging` does not fail and leaves the heap and the new tables, which
come from the heap, where they are. -/
theorem init_paging_covers (boxNew : TableMemory → Option ℕ) (hbox : FreshBoxes boxNew)
    (map : MemoryMapHolder) (hmap : UefiContract map) (hds : LowerHalf (descriptors map))
    (hheap : ∀ n a, boxNew n = some a →
      ∃ r ∈ registeredRegions (descriptors map), r.1 ≤ a ∧ a+4096 ≤ r.2)
    (m : TableMemory) (fuel : ℕ) (hf : (descriptors map).length < fuel)
    (hmem : initPaging boxNew fuel map m ≠ .error .outOfMemory) :
    ∃ cr3 m' top, initPaging boxNew fuel map m = .ok (.ok cr3,m') ∧
      IdentityMapped (descriptors map) m m' cr3 top := by
  have hs := contract_shows map hmap
  obtain ⟨cr3,m',hrun,ht,hb,hw⟩ :=
    (init_yields boxNew hbox map _ hs hds fuel hf m).resolve_left
      (by rintro ⟨e,⟨rfl,-⟩,he⟩; exact hmem he)
  obtain ⟨hle,hal⟩ := endOfMem_bounds (descriptors map) hds 0x100000000 (by decide) (by decide)
  have hid := fun x => translate_identity m' cr3 _ x hle hal hw
  refine ⟨cr3,m',_,hrun,endOfMem_ge _ _,fun d hd hm => endOfMem_covers _ _ d hd hm,hw,?_,?_,?_⟩
  · intro v hv hlt
    apply write_walk m m' cr3 ht
    rw [hw v hv (by omega), if_pos hlt]
  · intro r hr x _ hx
    exact hid x (hx.trans_le (registered_below _ hds _ r hr))
  · intro a ha hnew x _ hx
    rcases hb a ha with hold | ⟨n,hn⟩
    · exact absurd hnew hold
    · obtain ⟨r,hr,-,hr2⟩ := hheap n a hn
      have hbelow := registered_below _ hds 0x100000000 r hr
      exact hid x (by omega)

/-- The lowest page of a range that holds no table. -/
def lowestFree (start pages : ℕ) (m : TableMemory) : Option ℕ :=
  ((List.range pages).map (fun k => start+k*4096)).find? (fun a => (m a).isNone)

theorem lowestFree_some (start pages : ℕ) (m : TableMemory) (a : ℕ)
    (h : lowestFree start pages m = some a) : (∃ k < pages, a = start+k*4096) ∧ m a = none := by
  obtain ⟨k,hk,rfl⟩ := List.mem_map.mp (List.mem_of_find?_eq_some h)
  have hn := List.find?_some h
  exact ⟨⟨k,List.mem_range.mp hk,rfl⟩,by simpa using hn⟩

theorem lowestFree_fresh (start pages : ℕ) (hs : 4096 ∣ start) (he : start+pages*4096 ≤ 2^52) :
    FreshBoxes (lowestFree start pages) := by
  intro m a h
  obtain ⟨⟨k,hk,rfl⟩,hn⟩ := lowestFree_some start pages m a h
  exact ⟨by omega,by omega,hn⟩

/-- More pages than paths are enough. -/
theorem lowestFree_roomy (start pages : ℕ) (hp : tableBound < pages) :
    Roomy (lowestFree start pages) (fun _ => none) := by
  intro m new hcard hnew hnone
  have hsub : (Finset.range pages).image (fun k => start+k*4096) ⊆ new := by
    intro a ha
    obtain ⟨k,hk,rfl⟩ := Finset.mem_image.mp ha
    have hall := List.find?_eq_none.mp hnone (start+k*4096)
      (List.mem_map_of_mem (List.mem_range.mpr (Finset.mem_range.mp hk)))
    obtain ⟨t,ht⟩ := Option.ne_none_iff_exists'.mp (by simpa using hall)
    rcases hnew _ t ht with ⟨t',ht'⟩ | hmem
    · cases ht'
    · exact hmem
  have hle := Finset.card_le_card hsub
  rw [Finset.card_image_of_injective _ (fun i j hij => by simpa using hij),
    Finset.card_range] at hle
  omega

theorem init_paging_covers_wide :
    ∃ cr3 m' top, initPaging (lowestFree 0x200000000 0x10000000) 2 wideMap (fun _ => none) =
        .ok (.ok cr3,m') ∧ IdentityMapped (descriptors wideMap) (fun _ => none) m' cr3 top := by
  have hfresh := lowestFree_fresh 0x200000000 0x10000000 (by decide) (by decide)
  have hlow : LowerHalf (descriptors wideMap) := by
    rw [wideMap_descriptors]
    unfold LowerHalf
    decide
  have hregion : registeredRegions (descriptors wideMap) = [(0x200000000,0x10200000000)] := by
    rw [wideMap_descriptors]
    decide
  apply init_paging_covers _ hfresh wideMap wideMap_contract hlow
  · intro n a hn
    obtain ⟨⟨k,hk,rfl⟩,-⟩ := lowestFree_some _ _ n a hn
    rw [hregion]
    exact ⟨_,List.mem_singleton_self _,by simp only; omega,by simp only; omega⟩
  · rw [wideMap_descriptors]
    decide
  · have hroomy := lowestFree_roomy 0x200000000 0x10000000 (by decide)
    exact roomy_yields _ _ _ hroomy _ _ (init_yields _ hfresh wideMap _
      (contract_shows wideMap wideMap_contract) hlow 2
      (by rw [wideMap_descriptors]; decide) _)

end Wasabi.Paging.InitPaging
