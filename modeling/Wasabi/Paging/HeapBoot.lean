import Wasabi.Paging.HeapMapping

/-!
# The switch to tables on the heap

The boot makes one call, for everything below the end of memory. The number
of tables it needs is known from that end alone. Behind the switch the heap
and all that is allocated in it stay at their addresses, also in later states.
-/

set_option autoImplicit false

namespace Wasabi.Paging.HeapBoot
open Wasabi.Uefi.Exit (wideMap wideMap_descriptors wideMap_contract)
open Wasabi.Rust Wasabi.Outcome Wasabi.Tiling Wasabi.Uefi.MemoryMap
open Wasabi.Paging.PageTable (TableMemory FreshBoxes PageAttr walk lift)
open Wasabi.Paging.Mapping Wasabi.Paging.Refinement Wasabi.Paging.Calls
open Wasabi.Paging.InitPaging
open Wasabi.Paging.TableProgram (initPaging_eq sim_initPaging)
open Wasabi.Paging.HeapTables Wasabi.Paging.HeapMapping
open Wasabi.Allocator.FirstFit Wasabi.Allocator.Provide
open Wasabi.Allocator.Registration Wasabi.Allocator.Runs Wasabi.Allocator.Safety
open Wasabi.Allocator.Boxes Wasabi.Allocator.PageSupply Wasabi.Allocator.Outside

/-- The only call of `init_paging`. -/
def bootCall (top : ℕ) : Call := ⟨0,top,0,.readWriteKernel⟩

/-- The number of windows of `2^shift` bytes below an address. -/
def windowsBelow (top shift : ℕ) : ℕ := (top+2^shift-1)/2^shift

def bootTables (top : ℕ) : ℕ := 1+(windowsBelow top 39+windowsBelow top 30+windowsBelow top 21)

theorem boot_pages (top v : ℕ) (ha : 4096 ∣ top) (hv : 4096 ∣ v) :
    v ∈ pages (bootCall top) ↔ v < top := by
  rw [mem_pages _ ⟨Nat.dvd_zero _,ha,Nat.dvd_zero _⟩ v hv]
  exact and_iff_right (Nat.zero_le v)

theorem windows_boot (top shift : ℕ) (ha : 4096 ∣ top) (hs : 12 ≤ shift) :
    windowsAt (pages (bootCall top)) shift = windowsBelow top shift := by
  have hpos : 0 < 2^shift := Nat.two_pow_pos shift
  have hset : ((pages (bootCall top)).map (fun v => v >>> shift)).toFinset =
      Finset.range (windowsBelow top shift) := by
    ext w
    rw [List.mem_toFinset, List.mem_map, Finset.mem_range, windowsBelow,
      Nat.lt_div_iff_mul_lt hpos]
    constructor
    · rintro ⟨v,hv,rfl⟩
      obtain ⟨-,-,hlt⟩ := pages_bounds _ ⟨Nat.dvd_zero _,ha,Nat.dvd_zero _⟩ v hv
      have hle := Nat.div_mul_le_self v (2^shift)
      change v < top at hlt
      rw [Nat.shiftRight_eq_div_pow]
      omega
    · intro hw
      have hdvd : 4096 ∣ w*2^shift := Dvd.dvd.mul_left (pow_dvd_pow 2 hs) w
      refine ⟨w*2^shift,(boot_pages top _ ha hdvd).mpr (by omega),?_⟩
      rw [Nat.shiftRight_eq_div_pow, Nat.mul_div_cancel _ hpos]
  rw [windowsAt, hset, Finset.card_range]

theorem boot_needs (top : ℕ) (ha : 4096 ∣ top) :
    tablesNeeded (pages (bootCall top)) = bootTables top := by
  rw [tablesNeeded, windows_boot top 39 ha (by decide), windows_boot top 30 ha (by decide),
    windows_boot top 21 ha (by decide), bootTables]

/-- What translates under the tables at `cr3`: the addresses below `top` to
themselves, and among them the regions of the heap and what is allocated. -/
structure InPlace (ds : List EfiMemoryDescriptor) (s : Client) (cr3 top : ℕ) : Prop where
  memory : ∀ d ∈ ds, mapped d.memoryType = true → (range d).2 ≤ top
  identity : ∀ v, 4096 ∣ v → v < 2^48 → walk (tableView s.heap.memory) cr3 v =
    if v < top then some (v,PageAttr.readWriteKernel.value) else none
  heap : ∀ r ∈ registeredRegions ds, ∀ x, r.1 ≤ x → x < r.2 →
    translate (tableView s.heap.memory) cr3 x = some x
  live : ∀ a ∈ s.live, ∀ x ∈ userBytes a, translate (tableView s.heap.memory) cr3 x = some x

section Boot
variable (ds : List EfiMemoryDescriptor) (hds : LowerHalf ds)
include hds

/-- The boot on whole tables: the tables it leaves and the translation. -/
theorem boot_tables (map : MemoryMapHolder) (hs : Shows map ds) (boxNew : TableMemory → Option ℕ)
    (hbox : FreshBoxes boxNew) (fuel : ℕ) (hf : ds.length < fuel) :
    Yields (Exhausted boxNew (fun _ => none)) (InitPaging.initPaging boxNew fuel map)
      (fun _ => none) (fun root m =>
        TablesFor (pages (bootCall (endOfMem ds 0x100000000))) m root ∧
        ∀ v, 4096 ∣ v → v < 2^48 → walk m root v = if v < endOfMem ds 0x100000000 then
          some (v,PageAttr.readWriteKernel.value) else none) := by
  obtain ⟨hle,hal⟩ := endOfMem_bounds ds hds 0x100000000 (by decide) (by decide)
  apply yields_bind _ _ _ _ _ _ (root_tables boxNew hbox)
  rintro root m1 ⟨ht1,hw1⟩
  have hfold : lift (forEach extend fuel map.iter 0x100000000) m1 =
      .ok (.ok (endOfMem ds 0x100000000),m1) := by
    rw [lift, forEach_shown map ds hs extend fuel hf, extend_all ds hds]
    rfl
  have hcall : CallOk (bootCall (endOfMem ds 0x100000000)) :=
    ⟨Nat.dvd_zero _,hal,Nat.dvd_zero _,hle,by simp only [bootCall]; omega⟩
  apply yields_bind _ _ _ _ (fun n m' => n = endOfMem ds 0x100000000 ∧ m' = m1) _
    (Or.inr ⟨_,m1,hfold,rfl,rfl⟩)
  rintro _ _ ⟨rfl,rfl⟩
  apply yields_bind _ _ _ _ _ _
    (expect_yields _ _ _ _ _ (call_tables boxNew hbox [] root _ ht1 _ hcall))
  rintro _ m2 ⟨ht2,hw2⟩
  apply yields_pure
  refine ⟨ht2,?_⟩
  intro v hv hv'
  rw [hw2 v hv hv', hw1 v]
  by_cases hlt : v < endOfMem ds 0x100000000
  · simp [Call.covers, Call.target, bootCall, hlt]
  · simp [Call.covers, bootCall, hlt]

theorem in_place (s : Client) (bs : List Block)
    (hi : Inv (registeredRegions ds) s bs) (cr3 : ℕ)
    (hw : ∀ v, 4096 ∣ v → v < 2^48 → walk (tableView s.heap.memory) cr3 v =
      if v < endOfMem ds 0x100000000 then some (v,PageAttr.readWriteKernel.value) else none) :
    InPlace ds s cr3 (endOfMem ds 0x100000000) := by
  obtain ⟨hle,hal⟩ := endOfMem_bounds ds hds 0x100000000 (by decide) (by decide)
  have hregion : ∀ r ∈ registeredRegions ds, ∀ x, r.1 ≤ x → x < r.2 →
      translate (tableView s.heap.memory) cr3 x = some x := by
    intro r hr x _ hx
    exact translate_identity _ cr3 _ x hle hal hw (hx.trans_le (registered_below ds hds _ r hr))
  refine ⟨fun d hd hm => endOfMem_covers _ _ d hd hm,hw,hregion,?_⟩
  rintro a ha x ⟨hx1,hx2⟩
  obtain ⟨r,hr,hlow,hhigh⟩ := (hi.sound a (hi.recorded a ha)).inside
  exact hregion r hr x (hlow.trans hx1) (hx2.trans_le hhigh)

/-- `init_paging` on a heap that keeps its invariant, and what is left of it later. -/
theorem boot_run (map : MemoryMapHolder) (hs : Shows map ds)
    (hap : (registeredRegions ds).Pairwise Apart) (s : Client) (bs : List Block)
    (hi : Inv (registeredRegions ds) s bs) (later : List Op) (fuel : ℕ) (hd : ds.length < fuel)
    (hf : bs.length+2*(pageYields bs+later.length) ≤ fuel) :
    (pageYields bs < bootTables (endOfMem ds 0x100000000) →
      TableProgram.initPaging (heapTables fuel) fuel map s = .error .outOfMemory) ∧
    (bootTables (endOfMem ds 0x100000000) ≤ pageYields bs →
      ∃ (cr3 : ℕ) (s' : Client) (tables : List ℕ) (bs' : List Block),
      TableProgram.initPaging (heapTables fuel) fuel map s = .ok (.ok cr3,s') ∧
      Inv (registeredRegions ds) s' bs' ∧ bs'.length ≤ bs.length+2*pageYields bs ∧
      s'.live = tables.map pageAt++s.live ∧
      tables.length = bootTables (endOfMem ds 0x100000000) ∧ cr3 ∈ tables ∧
      (∀ a ∈ s.live, ∀ x ∈ userBytes a, s'.heap.memory x = s.heap.memory x) ∧
      (∀ x, Unregistered (registeredRegions ds) x → s'.heap.memory x = s.heap.memory x) ∧
      InPlace ds s' cr3 (endOfMem ds 0x100000000) ∧
      (Spares fuel (tables.map pageAt) s' later → ∃ s2 bs2, runFrom fuel s' later = .ok s2 ∧
        Inv (registeredRegions ds) s2 bs2 ∧ InPlace ds s2 cr3 (endOfMem ds 0x100000000))) := by
  obtain ⟨hle,hal⟩ := endOfMem_bounds ds hds 0x100000000 (by decide) (by decide)
  have hphys : ∀ r ∈ registeredRegions ds, r.2 ≤ 2^52 := by
    intro r hr
    have hb := registered_below _ hds 0x100000000 r hr
    omega
  have hfresh := boxes_fresh _ hap s bs hi hphys
  have hboot := boot_tables _ hds map hs (boxes bs) hfresh fuel hd
  obtain ⟨root,m,hwhole,htables,hwalk⟩ := hboot.resolve_left (by
    rintro ⟨e,⟨rfl,hex⟩,he⟩
    exact roomy_yields _ _ _ (boxes_roomy bs) _ _ hboot he)
  rw [initPaging_eq] at hwhole
  have hsim := sim_initPaging _ _ (heap_sim _ s bs hap hi spareAddrs fuel
    (by rw [supplied_length]; omega) hfresh) fuel map
  have hpages : ∀ v ∈ pages (bootCall (endOfMem ds 0x100000000)), v < 2^48 := by
    intro v hv
    obtain ⟨-,-,hlt⟩ := pages_bounds _ ⟨Nat.dvd_zero _,hal,Nat.dvd_zero _⟩ v hv
    exact hlt.trans_le hle
  obtain ⟨hfew,henough⟩ := heap_outcome _ hap s bs hi _ _ hsim root m hwhole _ hpages htables
  rw [boot_needs _ hal] at hfew henough
  refine ⟨hfew,?_⟩
  intro hroom
  obtain ⟨s',bs',tables,hheap,hi',hlen',hcount,hmapped,hview,houtside⟩ := henough hroom
  refine ⟨root,s',tables,bs',hheap,hi',hlen',hmapped.live,hcount,hmapped.rooted,hmapped.kept,
    houtside,?_,?_⟩
  · apply in_place _ hds s' bs' hi' root
    intro v hv hv'
    rw [hmapped.translates v hv hv', hwalk v hv hv']
  · intro hsp
    obtain ⟨s2,bs2,hrun2,hi2,hsame⟩ := mapped_persists _ hap s' bs' hi' root tables (by
      intro a ha
      rw [hmapped.live]
      exact List.mem_append_left _ (List.mem_map_of_mem ha)) m _ htables hview later fuel
      (by omega) hsp
    refine ⟨s2,bs2,hrun2,hi2,in_place _ hds s2 bs2 hi2 root ?_⟩
    intro v hv hv'
    rw [hsame v, hwalk v hv hv']

end Boot

/-- In any reachable state of the heap `init_paging` succeeds exactly if the
free blocks supply a page for each table below the end of memory. Then the
heap and every allocation keep their addresses, in this state and in each
later one that spares the tables. -/
theorem boot_on_heap (map : MemoryMapHolder) (hmap : UefiContract map)
    (hconv : ConventionalContract (descriptors map)) (hds : LowerHalf (descriptors map))
    (memory : HeaderMemory) (ops later : List Op) (fuel : ℕ)
    (hf : (descriptors map).length+
      2*(ops.length+later.length+registeredBytes (descriptors map)) < fuel) :
    ∃ s bs, run fuel map memory ops = .ok s ∧ Chain s.heap.memory s.heap.firstHeader bs ∧
      (pageYields bs < bootTables (endOfMem (descriptors map) 0x100000000) →
        TableProgram.initPaging (heapTables fuel) fuel map s = .error .outOfMemory) ∧
      (bootTables (endOfMem (descriptors map) 0x100000000) ≤ pageYields bs →
        ∃ (cr3 : ℕ) (s' : Client) (tables : List ℕ) (blocks : List Block),
        TableProgram.initPaging (heapTables fuel) fuel map s = .ok (.ok cr3,s') ∧
        Safe (descriptors map) s' blocks ∧ s'.live = tables.map pageAt++s.live ∧
        tables.length = bootTables (endOfMem (descriptors map) 0x100000000) ∧ cr3 ∈ tables ∧
        (∀ a ∈ s.live, ∀ x ∈ userBytes a, s'.heap.memory x = s.heap.memory x) ∧
        InPlace (descriptors map) s' cr3 (endOfMem (descriptors map) 0x100000000) ∧
        (Spares fuel (tables.map pageAt) s' later → ∃ s2, runFrom fuel s' later = .ok s2 ∧
          InPlace (descriptors map) s2 cr3 (endOfMem (descriptors map) 0x100000000))) := by
  have hs := contract_shows map hmap
  obtain ⟨s,bs,hrun,hi,hlen⟩ := run_inv map _ hs hconv memory ops fuel (by omega)
  have hsupply := yields_registered _ s bs hi
  obtain ⟨hfew,henough⟩ := boot_run _ hds map hs (registered_apart _ hconv) s bs hi later fuel
    (by omega) (by omega)
  refine ⟨s,bs,hrun,hi.chain,hfew,?_⟩
  intro hroom
  obtain ⟨cr3,s',tables,bs',hheap,hi',-,hlive,hcount,hroot,hkept,-,hplace,hlater⟩ := henough hroom
  refine ⟨cr3,s',tables,bs',hheap,inv_safe _ hconv s' bs' hi',hlive,hcount,hroot,hkept,hplace,?_⟩
  intro hsp
  obtain ⟨s2,-,hrun2,-,hplace2⟩ := hlater hsp
  exact ⟨s2,hrun2,hplace2⟩

theorem wideMap_lowerHalf : LowerHalf (descriptors wideMap) := by
  rw [wideMap_descriptors]
  unfold LowerHalf
  decide

theorem boot_on_heap_wide :
    ∃ s bs, run (2^42) wideMap (fun _ => .raw 0) [] = .ok s ∧
      Chain s.heap.memory s.heap.firstHeader bs ∧
      (pageYields bs < bootTables (endOfMem (descriptors wideMap) 0x100000000) →
        TableProgram.initPaging (heapTables (2^42)) (2^42) wideMap s = .error .outOfMemory) ∧
      (bootTables (endOfMem (descriptors wideMap) 0x100000000) ≤ pageYields bs →
        ∃ (cr3 : ℕ) (s' : Client) (tables : List ℕ) (blocks : List Block),
        TableProgram.initPaging (heapTables (2^42)) (2^42) wideMap s = .ok (.ok cr3,s') ∧
        Safe (descriptors wideMap) s' blocks ∧ s'.live = tables.map pageAt++s.live ∧
        tables.length = bootTables (endOfMem (descriptors wideMap) 0x100000000) ∧ cr3 ∈ tables ∧
        (∀ a ∈ s.live, ∀ x ∈ userBytes a, s'.heap.memory x = s.heap.memory x) ∧
        InPlace (descriptors wideMap) s' cr3 (endOfMem (descriptors wideMap) 0x100000000) ∧
        (Spares (2^42) (tables.map pageAt) s' [.alloc (layout 8 3 (by decide))] →
          ∃ s2, runFrom (2^42) s' [.alloc (layout 8 3 (by decide))] = .ok s2 ∧
          InPlace (descriptors wideMap) s2 cr3
            (endOfMem (descriptors wideMap) 0x100000000))) := by
  apply boot_on_heap wideMap wideMap_contract wideMap_conventional wideMap_lowerHalf
  rw [wideMap_descriptors]
  decide

end Wasabi.Paging.HeapBoot
