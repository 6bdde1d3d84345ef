import Wasabi.Paging.HeapTables
import Wasabi.Paging.TableCount

/-!
# Mapping calls on the heap of the kernel

On the heap the calls need one page for the root and one for each window of
their pages, at each of three levels. If the free blocks supply that many, the
bytes of the boxes translate as the calls ask, now and after whatever other
clients do. If they supply fewer, the kernel stops in the error handler.
-/

set_option autoImplicit false

namespace Wasabi.Paging.HeapMapping
open Wasabi.Rust Wasabi.Outcome Wasabi.Simulation Wasabi.RawBytes Wasabi.Tiling
open Wasabi.Uefi.MemoryMap
open Wasabi.Paging.PageTable (TableMemory FreshBoxes PageAttr walk path calcIndex link leaf)
open Wasabi.Paging.Mapping Wasabi.Paging.Refinement Wasabi.Paging.Calls
open Wasabi.Paging.TableCount (card_same_kernel path_take_iff)
open Wasabi.Paging.TableProgram
open Wasabi.Paging.HeapTables
open Wasabi.TableTree (Tree descend)
open Wasabi.Uefi.Exit (wideMap wideMap_descriptors wideMap_contract)
open Wasabi.Allocator.FirstFit Wasabi.Allocator.Provide Wasabi.Allocator.BlockList
open Wasabi.Allocator.Registration Wasabi.Allocator.Runs Wasabi.Allocator.Safety
open Wasabi.Allocator.Boxes Wasabi.Allocator.PageSupply Wasabi.Allocator.Outside

/-- The windows of `2^shift` bytes that some addresses lie in. -/
def windowsAt (vs : List ℕ) (shift : ℕ) : ℕ := (vs.map (fun v => v >>> shift)).toFinset.card

/-- The root and a table for each window. -/
def tablesNeeded (vs : List ℕ) : ℕ := 1+(windowsAt vs 39+windowsAt vs 30+windowsAt vs 21)

/-- The pages of calls. -/
def pagesOf (calls : List Call) : List ℕ := calls.flatMap pages

/-- Paths of `k` indices to the given addresses. -/
def pathsAt (vs : List ℕ) (k : ℕ) : Finset (List (Fin 512)) :=
  (vs.map (fun v => (path v).take k)).toFinset

/-- The paths at whose ends tables are needed. -/
def tablePaths (vs : List ℕ) : Finset (List (Fin 512)) :=
  insert [] (pathsAt vs 1 ∪ (pathsAt vs 2 ∪ pathsAt vs 3))

theorem mem_pathsAt (vs : List ℕ) (k : ℕ) (hk : k ≤ 3) (q : List (Fin 512)) :
    q ∈ pathsAt vs k ↔ q.length = k ∧ ∃ v ∈ vs, q <+: path v := by
  rw [pathsAt, List.mem_toFinset, List.mem_map]
  constructor
  · rintro ⟨v,hv,rfl⟩
    exact ⟨by rw [List.length_take]; exact Nat.min_eq_left hk,v,hv,List.take_prefix k _⟩
  · rintro ⟨rfl,v,hv,hpre⟩
    exact ⟨v,hv,(List.prefix_iff_eq_take.mp hpre).symm⟩

theorem mem_tablePaths (vs : List ℕ) (q : List (Fin 512)) :
    q ∈ tablePaths vs ↔ q.length ≤ 3 ∧ (q = [] ∨ ∃ v ∈ vs, q <+: path v) := by
  rw [tablePaths, Finset.mem_insert, Finset.mem_union, Finset.mem_union,
    mem_pathsAt vs 1 (by decide), mem_pathsAt vs 2 (by decide), mem_pathsAt vs 3 (by decide)]
  constructor
  · rintro (rfl | ⟨h,hv⟩ | ⟨h,hv⟩ | ⟨h,hv⟩)
    · exact ⟨by decide,Or.inl rfl⟩
    · exact ⟨by omega,Or.inr hv⟩
    · exact ⟨by omega,Or.inr hv⟩
    · exact ⟨by omega,Or.inr hv⟩
  · rintro ⟨hlen,hq⟩
    by_cases h0 : q = []
    · exact Or.inl h0
    · have hpos := List.length_pos_iff.mpr h0
      have hv := hq.resolve_left h0
      have hcases : q.length = 1 ∨ q.length = 2 ∨ q.length = 3 := by omega
      rcases hcases with h | h | h
      · exact Or.inr (Or.inl ⟨h,hv⟩)
      · exact Or.inr (Or.inr (Or.inl ⟨h,hv⟩))
      · exact Or.inr (Or.inr (Or.inr ⟨h,hv⟩))

theorem pathsAt_disjoint (vs : List ℕ) (j k : ℕ) (hj : j ≤ 3) (hk : k ≤ 3) (hne : j ≠ k) :
    Disjoint (pathsAt vs j) (pathsAt vs k) := by
  rw [Finset.disjoint_left]
  intro q hqj hqk
  exact hne (((mem_pathsAt vs j hj q).mp hqj).1.symm.trans ((mem_pathsAt vs k hk q).mp hqk).1)

theorem tablePaths_card (vs : List ℕ) (h : ∀ v ∈ vs, v < 2^48) :
    (tablePaths vs).card = tablesNeeded vs := by
  have hsame := fun v hv w hw => path_take_iff v w (h v hv) (h w hw)
  have h1 : (pathsAt vs 1).card = windowsAt vs 39 :=
    card_same_kernel vs _ _ (fun v hv w hw => (hsame v hv w hw).1)
  have h2 : (pathsAt vs 2).card = windowsAt vs 30 :=
    card_same_kernel vs _ _ (fun v hv w hw => (hsame v hv w hw).2.1)
  have h3 : (pathsAt vs 3).card = windowsAt vs 21 :=
    card_same_kernel vs _ _ (fun v hv w hw => (hsame v hv w hw).2.2)
  have hroot : [] ∉ pathsAt vs 1 ∪ (pathsAt vs 2 ∪ pathsAt vs 3) := by
    rw [Finset.mem_union, Finset.mem_union, mem_pathsAt vs 1 (by decide),
      mem_pathsAt vs 2 (by decide), mem_pathsAt vs 3 (by decide)]
    rintro (⟨h,-⟩ | ⟨h,-⟩ | ⟨h,-⟩) <;> cases h
  rw [tablePaths, Finset.card_insert_of_notMem hroot, Finset.card_union_of_disjoint,
    Finset.card_union_of_disjoint, h1, h2, h3, tablesNeeded]
  · omega
  · exact pathsAt_disjoint vs 2 3 (by decide) (by decide) (by decide)
  · rw [Finset.disjoint_union_right]
    exact ⟨pathsAt_disjoint vs 1 2 (by decide) (by decide) (by decide),
      pathsAt_disjoint vs 1 3 (by decide) (by decide) (by decide)⟩

/-- The tables of a memory are at the ends of the paths to some addresses. -/
structure TablesFor (vs : List ℕ) (m : TableMemory) (root : ℕ) : Prop where
  tree : PageTree (fun _ => none) m root
  paths : ∀ q, q.length ≤ 3 → (descend link m root q ≠ none ↔ q = [] ∨ ∃ v ∈ vs, q <+: path v)

theorem tables_weight (vs : List ℕ) (h : ∀ v ∈ vs, v < 2^48) (m : TableMemory) (root : ℕ)
    (ht : TablesFor vs m root) : weight m = tablesNeeded vs := by
  have hset : {a | m a ≠ none} = {a | ∃ q ∈ tablePaths vs, descend link m root q = some a} := by
    ext a
    constructor
    · intro ha
      obtain ⟨t,hat⟩ := Option.ne_none_iff_exists'.mp ha
      rcases ht.tree.reached a t hat with ⟨t',h0⟩ | ⟨q,hq,hqa⟩
      · cases h0
      · have hsome : descend link m root q ≠ none := by
          rw [hqa]
          exact Option.some_ne_none a
        exact ⟨q,(mem_tablePaths vs q).mpr ⟨hq,(ht.paths q hq).mp hsome⟩,hqa⟩
    · rintro ⟨q,hq,hqa⟩
      obtain ⟨t,hat⟩ := ht.tree.tree.live q a ((mem_tablePaths vs q).mp hq).1 hqa
      change m a ≠ none
      rw [hat]
      exact Option.some_ne_none t
  rw [weight, hset, TableGrowth.tables_ncard link 3 m root ht.tree.tree, tablePaths_card vs h]
  · exact fun q hq => ((mem_tablePaths vs q).mp hq).1
  · intro q hq
    obtain ⟨hlen,hv⟩ := (mem_tablePaths vs q).mp hq
    exact (ht.paths q hlen).mpr hv

section Whole
variable (boxNew : TableMemory → Option ℕ) (hbox : FreshBoxes boxNew)
include hbox

theorem call_tables (vs : List ℕ) (root : ℕ) (m : TableMemory) (ht : TablesFor vs m root) (c : Call)
    (hc : CallOk c) :
    Yields (Exhausted boxNew (fun _ => none)) (callMapping boxNew root c) m
      (fun _ m' => TablesFor (vs++pages c) m' root ∧
        ∀ v, 4096 ∣ v → v < 2^48 → walk m' root v =
          if c.covers v then c.target v else walk m root v) := by
  rcases call_mapping boxNew hbox _ root m ht.tree c hc with hfault | ⟨u,m',hrun,ht',-,hw⟩
  · exact Or.inl hfault
  · refine Or.inr ⟨u,m',hrun,⟨ht',?_⟩,hw⟩
    obtain ⟨-,-,-,hremaps⟩ := yields_returned _ _ _ _ _ _ (call_effect boxNew _ root m c hbox
      ht.tree ⟨hc.virtStart,hc.virtEnd,hc.phys⟩) hrun
    intro q hq
    rw [remaps_paths root _ m m' _ hremaps q hq, ht.paths q hq]
    simp only [List.mem_append, or_and_right, exists_or, or_assoc]

theorem root_tables :
    Yields (Exhausted boxNew (fun _ => none)) (PageTable.newPml4 boxNew) (fun _ => none)
      (fun root m => TablesFor [] m root ∧ ∀ v, walk m root v = none) := by
  rcases new_pml4 boxNew hbox (fun _ => none) with hfault | ⟨root,m,hrun,ht,-,-,-,hw⟩
  · exact Or.inl hfault
  · obtain ⟨-,-,hblank⟩ := TableCount.fresh_root boxNew _ root m hrun
    refine Or.inr ⟨root,m,hrun,⟨ht,?_⟩,hw⟩
    intro q _
    constructor
    · intro hne
      left
      by_contra hq
      exact hne (hblank q hq)
    · rintro (rfl | ⟨v,hv,-⟩)
      · exact Option.some_ne_none root
      · cases hv

/-- The calls on whole tables: the tables they leave and the translation. -/
theorem all_tables (calls : List Call) (hc : ∀ c ∈ calls, CallOk c) :
    Yields (Exhausted boxNew (fun _ => none)) (Refinement.mapAll boxNew calls) (fun _ => none)
      (fun root m' => TablesFor (pagesOf calls) m' root ∧
        ∀ v, 4096 ∣ v → v < 2^48 → walk m' root v = lastCovering calls v) := by
  apply yields_bind _ _ _ _ _ _ (root_tables boxNew hbox)
  rintro root m1 ⟨hstart,hw1⟩
  have hloop := yields_forM (Exhausted boxNew (fun _ => none)) (callMapping boxNew root)
    (fun done m' => TablesFor (pagesOf done) m' root ∧
      ∀ v, 4096 ∣ v → v < 2^48 → walk m' root v = lastCovering done v)
    calls [] m1 ?_ ⟨hstart,fun v _ _ => hw1 v⟩
  · rw [List.nil_append] at hloop
    apply yields_bind _ _ _ _ _ _ hloop
    rintro _ m2 hm2
    exact yields_pure _ _ _ _ hm2
  · rintro done c m2 hcm ⟨ht2,hw2⟩
    apply yields_mono _ _ _ _ _ (call_tables boxNew hbox _ root m2 ht2 c (hc c hcm))
    rintro _ m3 ⟨ht3,hw3⟩
    refine ⟨?_,?_⟩
    · rw [pagesOf, List.flatMap_append, List.flatMap_singleton]
      exact ht3
    · intro v hv hv'
      rw [lastCovering_snoc, hw3 v hv hv', hw2 v hv hv']

end Whole

/-- Addresses above the lower half, more than there are paths. -/
def spareAddrs : List ℕ := (List.range (tableBound+1)).map (fun k => 2^48+k*4096)

theorem spare_bounds (a : ℕ) (h : a ∈ spareAddrs) : 4096 ∣ a ∧ a < 2^52 := by
  obtain ⟨k,hk,rfl⟩ := List.mem_map.mp h
  rw [List.mem_range] at hk
  unfold tableBound at hk
  omega

/-- The supply of the heap and, behind it, the spare addresses. -/
def boxes (bs : List Block) : TableMemory → Option ℕ :=
  takeFrom (suppliedPages bs++spareAddrs)

theorem boxes_roomy (bs : List Block) : Roomy (boxes bs) (fun _ => none) := by
  intro m new hcard hnew hnone
  have hsub : (Finset.range (tableBound+1)).image (fun k => 2^48+k*4096) ⊆ new := by
    intro a ha
    obtain ⟨k,hk,rfl⟩ := Finset.mem_image.mp ha
    have hmem : 2^48+k*4096 ∈ suppliedPages bs++spareAddrs := List.mem_append_right _
      (List.mem_map_of_mem (List.mem_range.mpr (Finset.mem_range.mp hk)))
    have hall := List.find?_eq_none.mp hnone _ hmem
    obtain ⟨t,ht⟩ := Option.ne_none_iff_exists'.mp (by simpa using hall)
    rcases hnew _ t ht with ⟨t',ht'⟩ | hin
    · cases ht'
    · exact hin
  have hle := Finset.card_le_card hsub
  rw [Finset.card_image_of_injective _ (fun i j hij => by simpa using hij),
    Finset.card_range] at hle
  omega

/-- The table that the bytes at an address hold. -/
def tableView (m : HeaderMemory) : TableMemory := fun a =>
  if ∀ i : Fin 512, (readWord m (entryAddr a i)).isSome then
    some (fun i => (readWord m (entryAddr a i)).getD 0)
  else none

theorem tableView_some (m : HeaderMemory) (a : ℕ) (t : Fin 512 → ℕ)
    (h : ∀ i, readWord m (entryAddr a i) = some (t i)) : tableView m a = some t := by
  rw [tableView, if_pos (fun i => by rw [h i]; rfl)]
  congr 1
  funext i
  rw [h i]
  rfl

/-- Tables that are boxes in front of the allocations of `s`, and what the
processor finds in their bytes. -/
structure HeapMapped (s s' : Client) (root : ℕ) (tables : List ℕ)
    (target : ℕ → Option (ℕ × ℕ)) : Prop where
  rooted : root ∈ tables
  live : s'.live = tables.map pageAt++s.live
  kept : ∀ a ∈ s.live, ∀ x ∈ userBytes a, s'.heap.memory x = s.heap.memory x
  translates : ∀ v, 4096 ∣ v → v < 2^48 → walk (tableView s'.heap.memory) root v = target v

section Heap
variable (rs : List (ℕ × ℕ)) (hrs : rs.Pairwise Apart) (s : Client) (bs : List Block)
  (hi : Inv rs s bs)
include hi

theorem backed_start : Backed rs s bs s (fun _ => none) :=
  ⟨0,bs,Nat.zero_le _,⟨hi,rfl,rfl,fun _ _ _ _ => rfl⟩,rfl,le_rfl,by simp,
    (fun _ _ h => by cases h),fun _ _ => rfl⟩

include hrs

theorem boxes_fresh (hphys : ∀ r ∈ rs, r.2 ≤ 2^52) : FreshBoxes (boxes bs) := by
  intro m a h
  obtain ⟨hmem,hfree⟩ := takeFrom_some _ m a h
  rcases List.mem_append.mp hmem with hmem | hmem
  · obtain ⟨hal,r,hr,-,hle⟩ := (supplied_sound rs hrs s bs hi).2 a hmem
    have hb := hphys r hr
    exact ⟨hal,by omega,hfree⟩
  · obtain ⟨hal,hlt⟩ := spare_bounds a hmem
    exact ⟨hal,hlt,hfree⟩

/-- A program on the heap that follows one on whole tables succeeds exactly if
the pages suffice for the tables that the other one makes. -/
theorem heap_outcome (x : HeapBuild ℕ) (y : PageTable.Build ℕ)
    (hsim : Simulates (Backed rs s bs) weight (suppliedPages bs).length .outOfMemory x y)
    (root : ℕ) (m : TableMemory) (hrun : y (fun _ => none) = .ok (.ok root,m)) (vs : List ℕ)
    (hvs : ∀ v ∈ vs, v < 2^48) (ht : TablesFor vs m root) :
    (pageYields bs < tablesNeeded vs → x s = .error .outOfMemory) ∧
    (tablesNeeded vs ≤ pageYields bs → ∃ s' bs' tables, x s = .ok (.ok root,s') ∧ Inv rs s' bs' ∧
      bs'.length ≤ bs.length+2*pageYields bs ∧ tables.length = tablesNeeded vs ∧
      HeapMapped s s' root tables (walk m root) ∧
      (∀ a t, m a = some t → a ∈ tables ∧ tableView s'.heap.memory a = some t) ∧
      ∀ x, Unregistered rs x → s'.heap.memory x = s.heap.memory x) := by
  have hstart := backed_start rs s bs hi
  have hw := tables_weight vs hvs m root ht
  have hlen := supplied_length bs
  constructor
  · intro hfew
    exact hsim.stops s _ _ m hstart hrun (by omega)
  · intro henough
    obtain ⟨s',hx,k,bs',hb⟩ := hsim.follows s _ _ m hstart hrun (by omega)
    have hk := backed_weight rs s bs hrs hi k bs' s' m hb
    have hview : ∀ a t, m a = some t → tableView s'.heap.memory a = some t :=
      fun a t hat => tableView_some _ a t (hb.words a t hat)
    have hmem : ∀ a, m a ≠ none → a ∈ ((suppliedPages bs).take k).reverse :=
      fun a ha => List.mem_reverse.mpr ((hb.domain a).mp ha)
    obtain ⟨t,hroot⟩ := ht.tree.tree.live [] root (by decide) rfl
    have hblocks := hb.blocks
    have hfew := hb.few
    refine ⟨s',bs',((suppliedPages bs).take k).reverse,hx,hb.paged.inv,by omega,?_,
      ⟨?_,?_,hb.paged.kept,?_⟩,?_,hb.outside⟩
    · rw [List.length_reverse, List.length_take]
      omega
    · exact hmem root (by rw [hroot]; exact Option.some_ne_none t)
    · rw [hb.paged.live, List.map_reverse]
    · intro v _ _
      exact TableTree.read_extend link leaf 3 m _ root hview ht.tree.tree (path v) le_rfl _
    · intro a t hat
      exact ⟨hmem a (by rw [hat]; exact Option.some_ne_none t),hview a t hat⟩

omit hi in
/-- Whoever spares the boxes of the tables leaves the translation as it is. -/
theorem mapped_persists (s' : Client) (bs' : List Block) (hi' : Inv rs s' bs') (root : ℕ)
    (tables : List ℕ) (hlive : ∀ a ∈ tables, pageAt a ∈ s'.live) (m : TableMemory) (vs : List ℕ)
    (ht : TablesFor vs m root)
    (hview : ∀ a t, m a = some t → a ∈ tables ∧ tableView s'.heap.memory a = some t)
    (later : List Op) (fuel : ℕ) (hf : bs'.length+2*later.length ≤ fuel)
    (hsp : Spares fuel (tables.map pageAt) s' later) :
    ∃ s2 bs2, runFrom fuel s' later = .ok s2 ∧ Inv rs s2 bs2 ∧
      ∀ v, walk (tableView s2.heap.memory) root v = walk m root v := by
  obtain ⟨s2,bs2,hrun,hi2,-,-,hsame⟩ := run_keeps_bytes rs hrs later s' bs' hi' fuel hf
    (tables.map pageAt) (by
      intro c hc
      obtain ⟨a,ha,rfl⟩ := List.mem_map.mp hc
      exact hlive a ha) hsp
  refine ⟨s2,bs2,hrun,hi2,fun v => ?_⟩
  apply TableTree.read_extend link leaf 3 m _ root _ ht.tree.tree (path v) le_rfl
  intro a t hat
  obtain ⟨hmem,hv⟩ := hview a t hat
  rw [← hv]
  have hword : ∀ i, readWord s2.heap.memory (entryAddr a i) =
      readWord s'.heap.memory (entryAddr a i) := by
    intro i
    have hlt := i.isLt
    apply readWord_congr
    intro x h1 h2
    unfold entryAddr at h1 h2
    apply hsame (pageAt a) (List.mem_map_of_mem hmem)
    exact ⟨by change a ≤ x; omega,by change x < a+4096; omega⟩
  simp only [tableView, hword]

end Heap

def registeredBytes (ds : List EfiMemoryDescriptor) : ℕ :=
  ((registeredRegions ds).map (fun r => r.2-r.1)).sum

theorem yields_registered (ds : List EfiMemoryDescriptor) (s : Client) (bs : List Block)
    (hi : Inv (registeredRegions ds) s bs) : pageYields bs ≤ registeredBytes ds := by
  have h := yields_le bs
  rwa [tilesAll_sum _ _ hi.tiles] at h

theorem pagesOf_bound (calls : List Call) (hc : ∀ c ∈ calls, CallOk c) (v : ℕ)
    (hv : v ∈ pagesOf calls) : v < 2^48 := by
  obtain ⟨c,hcm,hvc⟩ := List.mem_flatMap.mp hv
  have hok := hc c hcm
  have hb := (pages_bounds c ⟨hok.virtStart,hok.virtEnd,hok.phys⟩ v hvc).2.2
  have hend := hok.lowerHalf
  omega

/-- In any reachable state of the heap, a fresh root and calls on it succeed
exactly if the free blocks supply a page for each table. The tables are then
boxes of their own, and their bytes translate as the last covering call asks,
in this state and in every later one that other clients reach. -/
theorem mapping_on_heap (map : MemoryMapHolder) (hmap : UefiContract map)
    (hconv : ConventionalContract (descriptors map))
    (hphys : ∀ r ∈ registeredRegions (descriptors map), r.2 ≤ 2^52) (memory : HeaderMemory)
    (ops later : List Op) (calls : List Call) (hc : ∀ c ∈ calls, CallOk c) (fuel : ℕ)
    (hf : (descriptors map).length+
      2*(ops.length+later.length+registeredBytes (descriptors map)) < fuel) :
    ∃ s bs, run fuel map memory ops = .ok s ∧ Chain s.heap.memory s.heap.firstHeader bs ∧
      (pageYields bs < tablesNeeded (pagesOf calls) →
        TableProgram.mapAll (heapTables fuel) calls s = .error .outOfMemory) ∧
      (tablesNeeded (pagesOf calls) ≤ pageYields bs → ∃ root s' tables blocks,
        TableProgram.mapAll (heapTables fuel) calls s = .ok (.ok root,s') ∧
        Safe (descriptors map) s' blocks ∧ tables.length = tablesNeeded (pagesOf calls) ∧
        HeapMapped s s' root tables (lastCovering calls) ∧
        (Spares fuel (tables.map pageAt) s' later → ∃ s2, runFrom fuel s' later = .ok s2 ∧
          ∀ v, 4096 ∣ v → v < 2^48 →
            walk (tableView s2.heap.memory) root v = lastCovering calls v)) := by
  have hap := registered_apart _ hconv
  obtain ⟨s,bs,hrun,hi,hlen⟩ := run_inv map _ (contract_shows map hmap) hconv memory ops fuel
    (by omega)
  have hsupply := yields_registered _ s bs hi
  have hfresh := boxes_fresh _ hap s bs hi hphys
  have hall := all_tables (boxes bs) hfresh calls hc
  obtain ⟨root,m,hwhole,htables,hwalk⟩ := hall.resolve_left (by
    rintro ⟨e,⟨rfl,hex⟩,he⟩
    exact roomy_yields _ _ _ (boxes_roomy bs) _ _ hall he)
  rw [mapAll_eq] at hwhole
  have hsim := sim_mapAll _ _ (heap_sim _ s bs hap hi spareAddrs fuel
    (by rw [supplied_length]; omega) hfresh) calls
  obtain ⟨hfew,henough⟩ := heap_outcome _ hap s bs hi _ _ hsim root m hwhole _
    (pagesOf_bound calls hc) htables
  refine ⟨s,bs,hrun,hi.chain,hfew,?_⟩
  intro hle
  obtain ⟨s',bs',tables,hheap,hi',hlen',hcount,hmapped,hview,-⟩ := henough hle
  refine ⟨root,s',tables,bs',hheap,inv_safe _ hconv s' bs' hi',hcount,
    ⟨hmapped.rooted,hmapped.live,hmapped.kept,?_⟩,?_⟩
  · intro v hv hv'
    rw [hmapped.translates v hv hv', hwalk v hv hv']
  · intro hsp
    obtain ⟨s2,-,hrun2,-,hsame⟩ := mapped_persists _ hap s' bs' hi' root tables (by
      intro a ha
      rw [hmapped.live]
      exact List.mem_append_left _ (List.mem_map_of_mem ha)) m _ htables hview later fuel
      (by omega) hsp
    refine ⟨s2,hrun2,?_⟩
    intro v hv hv'
    rw [hsame v, hwalk v hv hv']

theorem mapping_on_heap_wide :
    ∃ s bs, run (2^42) wideMap (fun _ => .raw 0) [] = .ok s ∧
      Chain s.heap.memory s.heap.firstHeader bs ∧
      (pageYields bs < tablesNeeded (pagesOf [⟨0x1000,0x3000,0x7000,.readWriteKernel⟩]) →
        TableProgram.mapAll (heapTables (2^42)) [⟨0x1000,0x3000,0x7000,.readWriteKernel⟩] s =
          .error .outOfMemory) ∧
      (tablesNeeded (pagesOf [⟨0x1000,0x3000,0x7000,.readWriteKernel⟩]) ≤ pageYields bs →
        ∃ root s' tables blocks,
        TableProgram.mapAll (heapTables (2^42)) [⟨0x1000,0x3000,0x7000,.readWriteKernel⟩] s =
          .ok (.ok root,s') ∧
        Safe (descriptors wideMap) s' blocks ∧
        tables.length = tablesNeeded (pagesOf [⟨0x1000,0x3000,0x7000,.readWriteKernel⟩]) ∧
        HeapMapped s s' root tables (lastCovering [⟨0x1000,0x3000,0x7000,.readWriteKernel⟩]) ∧
        (Spares (2^42) (tables.map pageAt) s' [.alloc (layout 8 3 (by decide))] →
          ∃ s2, runFrom (2^42) s' [.alloc (layout 8 3 (by decide))] = .ok s2 ∧
          ∀ v, 4096 ∣ v → v < 2^48 → walk (tableView s2.heap.memory) root v =
            lastCovering [⟨0x1000,0x3000,0x7000,.readWriteKernel⟩] v)) := by
  apply mapping_on_heap wideMap wideMap_contract wideMap_conventional
  · rw [wideMap_regions]
    decide
  · intro c hc
    rw [List.mem_singleton.mp hc]
    decide
  · rw [wideMap_descriptors]
    decide

end Wasabi.Paging.HeapMapping
