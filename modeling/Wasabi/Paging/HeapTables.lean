import Wasabi.Paging.TableProgram
import Wasabi.Allocator.Boxes
import Wasabi.Allocator.PageSupply

/-!
# Page tables on the heap

The tables are boxes of the first-fit allocator, and an entry is a word in
the bytes of its box. A run on the heap follows the run on whole tables whose
`Box::new` takes the pages that the free blocks supply, in their order, and
goes on with addresses that are not in the heap. It stops for lack of memory
exactly if the other run has taken one of those.
-/

set_option autoImplicit false

namespace Wasabi.Paging.HeapTables
open Wasabi.Rust Wasabi.Outcome Wasabi.Simulation Wasabi.ObjectMemory Wasabi.RawBytes
open Wasabi.Tiling Wasabi.LittleEndian
open Wasabi.Paging.PageTable (TableMemory FreshBoxes)
open Wasabi.Paging.TableProgram Wasabi.TableTree
open Wasabi.Allocator.FirstFit Wasabi.Allocator.Provide Wasabi.Allocator.BlockList
open Wasabi.Allocator.Runs Wasabi.Allocator.Boxes Wasabi.Allocator.PageSupply
open Wasabi.Allocator.Outside

abbrev HeapBuild (α : Type) := Stateful String Client Fault α

/-- The address of an entry. -/
def entryAddr (table : ℕ) (index : Fin 512) : ℕ := table+8*index.val

/-- An access outside the live allocations is undefined. -/
def readValue (table : ℕ) (index : Fin 512) : HeapBuild ℕ := observe (fun s =>
  if owned s (entryAddr table index) 8 then
    deref (readWord s.heap.memory (entryAddr table index))
  else .error .undefinedBehaviour)

def writeValue (table : ℕ) (index : Fin 512) (value : ℕ) : HeapBuild Unit := fun s =>
  if owned s (entryAddr table index) 8 then
    .ok (.ok (),{s with heap := {s.heap with
      memory := writeWord (entryAddr table index) value s.heap.memory}})
  else .error .undefinedBehaviour

def newTable (fuel : ℕ) : HeapBuild ℕ := fun s => do
  let (s,p) ← boxNew fuel layoutPage4k (List.replicate 4096 0) s
  pure (.ok p,s)

/-- The memory of tables in boxes. -/
def heapTables (fuel : ℕ) : Tables Client := ⟨readValue,writeValue,newTable fuel⟩

/-- Tables are taken from a list of addresses, in order. -/
def takeFrom (addrs : List ℕ) (m : TableMemory) : Option ℕ := addrs.find? (fun a => (m a).isNone)

/-- The number of tables. -/
noncomputable def weight (m : TableMemory) : ℕ := {a | m a ≠ none}.ncard

theorem takeFrom_next (done rest : List ℕ) (m : TableMemory) (h : ∀ a ∈ done, m a ≠ none) :
    takeFrom (done++rest) m = takeFrom rest m := by
  rw [takeFrom, List.find?_append, List.find?_eq_none.mpr, Option.none_or]
  · rfl
  · intro a ha
    simpa using h a ha

theorem takeFrom_some (addrs : List ℕ) (m : TableMemory) (a : ℕ) (h : takeFrom addrs m = some a) :
    a ∈ addrs ∧ m a = none :=
  ⟨List.mem_of_find?_eq_some h,by simpa using List.find?_some h⟩

theorem grow_domain (m : TableMemory) (a : ℕ) :
    {b | grow m a 0 b ≠ none} = insert a {b | m b ≠ none} := by
  ext b
  by_cases he : b = a
  · simp [he, grow]
  · simp [he, grow]

theorem weight_grow (m : TableMemory) (a : ℕ) (hf : {b | m b ≠ none}.Finite) (ha : m a = none) :
    weight (grow m a 0) = weight m+1 := by
  rw [weight, grow_domain]
  exact Set.ncard_insert_of_notMem (fun h => h ha) hf

theorem weight_le_grow (m : TableMemory) (a : ℕ) : weight m ≤ weight (grow m a 0) := by
  rw [weight, weight, grow_domain]
  by_cases hf : {b | m b ≠ none}.Finite
  · exact Set.ncard_le_ncard (Set.subset_insert _ _) (hf.insert a)
  · rw [Set.Infinite.ncard hf]
    exact Nat.zero_le _

theorem weight_write (m : TableMemory) (table : ℕ) (index : Fin 512) (value : ℕ) :
    weight (write m table index value) = weight m := by
  have hset : {b | write m table index value b ≠ none} = {b | m b ≠ none} := by
    ext b
    by_cases he : b = table
    · simp [he, write]
    · simp [write, Function.update_of_ne he]
  rw [weight, hset]
  rfl

section Backed
variable (rs : List (ℕ × ℕ)) (s0 : Client) (bs0 : List Block)

/-- The first `k` pages of the supply are tables, and the bytes of each box
hold the entries of its table. -/
structure BackedBy (k : ℕ) (bs : List Block) (s : Client) (m : TableMemory) : Prop where
  few : k ≤ (suppliedPages bs0).length
  paged : Paged rs s0 s bs ((suppliedPages bs0).take k)
  left : suppliedPages bs = (suppliedPages bs0).drop k
  blocks : bs.length ≤ bs0.length+2*k
  domain : ∀ a, m a ≠ none ↔ a ∈ (suppliedPages bs0).take k
  words : ∀ a t, m a = some t → ∀ i, readWord s.heap.memory (entryAddr a i) = some (t i)
  outside : ∀ x, Unregistered rs x → s.heap.memory x = s0.heap.memory x

def Backed (s : Client) (m : TableMemory) : Prop := ∃ k bs, BackedBy rs s0 bs0 k bs s m

variable (hrs : rs.Pairwise Apart) (hi0 : Inv rs s0 bs0)

section One
variable (k : ℕ) (bs : List Block) (s : Client) (m : TableMemory) (hb : BackedBy rs s0 bs0 k bs s m)

include hb

theorem backed_live (a : ℕ) (ha : m a ≠ none) : pageAt a ∈ s.live := by
  rw [hb.paged.live]
  apply List.mem_append_left
  exact List.mem_reverse.mpr (List.mem_map_of_mem ((hb.domain a).mp ha))

theorem backed_owned (a : ℕ) (ha : m a ≠ none) (i : Fin 512) :
    owned s (entryAddr a i) 8 = true := by
  have hi := i.isLt
  apply owned_live s _ (backed_live rs s0 bs0 k bs s m hb a ha)
  · exact Nat.le_add_right _ _
  · change a+8*i.val+8 ≤ a+4096
    omega

theorem backed_old (a : ℕ) (ha : m a ≠ none) (c : Allocation) (hc : c ∈ s0.live) :
    c ≠ pageAt a ∧ c ∈ s.live := by
  have hlive := hb.paged.live
  have hd := hb.paged.inv.distinct
  rw [hlive, List.map_append, List.nodup_append] at hd
  constructor
  · rintro rfl
    have hfront : pageAt a ∈ (((suppliedPages bs0).take k).map pageAt).reverse :=
      List.mem_reverse.mpr (List.mem_map_of_mem ((hb.domain a).mp ha))
    exact hd.2.2 _ (List.mem_map_of_mem hfront) _ (List.mem_map_of_mem hc) rfl
  · rw [hlive]
    exact List.mem_append_right _ hc

include hrs

/-- A table shares no byte with another table or with an older allocation. -/
theorem backed_apart (a : ℕ) (ha : m a ≠ none) (c : Allocation) (hne : c ≠ pageAt a)
    (hc : c ∈ s.live) (x : ℕ) (hx : x ∈ userBytes c) : x < a ∨ a+4096 ≤ x := by
  have hdis := live_apart rs hrs s bs hb.paged.inv c (pageAt a) hc
    (backed_live rs s0 bs0 k bs s m hb a ha) hne
  by_contra hcon
  exact Set.disjoint_left.mp hdis hx ⟨by change a ≤ x; omega,by change x < a+4096; omega⟩

theorem backed_write (table : ℕ) (index : Fin 512) (value : ℕ) (hv : value < 2^64)
    (ht : m table ≠ none) :
    BackedBy rs s0 bs0 k bs {s with heap := {s.heap with
      memory := writeWord (entryAddr table index) value s.heap.memory}}
      (write m table index value) := by
  have hlt := index.isLt
  have hout : ∀ x, x < table ∨ table+4096 ≤ x →
      writeWord (entryAddr table index) value s.heap.memory x = s.heap.memory x := by
    intro x hx
    apply writeWord_outside
    unfold entryAddr
    omega
  have hinv := write_inv rs hrs s bs hb.paged.inv (pageAt table)
    (backed_live rs s0 bs0 k bs s m hb table ht)
    (writeWord (entryAddr table index) value s.heap.memory) (by
      intro x hx
      apply hout
      by_contra hcon
      exact hx ⟨by change table ≤ x; omega,by change x < table+4096; omega⟩)
  refine ⟨hb.few,⟨hinv,hb.paged.live,hb.paged.granted,?_⟩,hb.left,hb.blocks,?_,?_,?_⟩
  · intro c hc x hx
    obtain ⟨hne,hlive⟩ := backed_old rs s0 bs0 k bs s m hb table ht c hc
    rw [← hb.paged.kept c hc x hx]
    exact hout x (backed_apart rs s0 bs0 hrs k bs s m hb table ht c hne hlive x hx)
  · intro a
    rw [← hb.domain a, write]
    by_cases he : a = table
    · rw [he, Function.update_self, Ne, Option.map_eq_none_iff]
    · rw [Function.update_of_ne he]
  · intro a t hat i
    have hi := i.isLt
    by_cases he : a = table
    · subst he
      obtain ⟨u,hu⟩ := Option.ne_none_iff_exists'.mp ht
      rw [write, Function.update_self, hu, Option.map_some] at hat
      obtain rfl := Option.some.inj hat
      by_cases hie : i = index
      · rw [hie, Function.update_self]
        exact readWord_writeWord _ _ _ hv
      · have hne : i.val ≠ index.val := fun hval => hie (Fin.ext hval)
        rw [Function.update_of_ne hie, ← hb.words a u hu i]
        apply readWord_writeWord_other
        unfold entryAddr
        omega
    · rw [write, Function.update_of_ne he] at hat
      have hlive : m a ≠ none := by rw [hat]; exact Option.some_ne_none t
      rw [← hb.words a t hat i]
      apply readWord_congr
      intro x h1 h2
      unfold entryAddr at h1 h2
      apply hout
      apply backed_apart rs s0 bs0 hrs k bs s m hb table ht (pageAt a)
      · exact fun h => he (congrArg Allocation.ptr h)
      · exact backed_live rs s0 bs0 k bs s m hb a hlive
      · exact ⟨by change a ≤ x; omega,by change x < a+4096; omega⟩
  · intro x hx
    have htable := backed_live rs s0 bs0 k bs s m hb table ht
    have hinside := (hb.paged.inv.sound _ (hb.paged.inv.recorded _ htable)).inside
    have hfar := unregistered_inside rs x hx (pageAt table) hinside
    rw [← hb.outside x hx]
    apply hout
    by_contra hcon
    exact hfar ⟨by change table ≤ x; omega,by change x < table+4096; omega⟩

section New
variable (fuel : ℕ) (hf : bs0.length+2*(suppliedPages bs0).length ≤ fuel)
include hf

/-- The next page of the supply becomes a table of zeros. -/
theorem backed_new (hk : k < (suppliedPages bs0).length) :
    ∃ s' bs', newTable fuel s = .ok (.ok ((suppliedPages bs0).get ⟨k,hk⟩),s') ∧
      BackedBy rs s0 bs0 (k+1) bs' s' (grow m ((suppliedPages bs0).get ⟨k,hk⟩) 0) := by
  have hcons : suppliedPages bs =
      (suppliedPages bs0).get ⟨k,hk⟩::(suppliedPages bs0).drop (k+1) := by
    rw [hb.left, List.drop_eq_getElem_cons hk]
    rfl
  have htake : (suppliedPages bs0).take (k+1) =
      (suppliedPages bs0).take k++[(suppliedPages bs0).get ⟨k,hk⟩] := by
    rw [List.take_succ_eq_append_getElem hk]
    rfl
  generalize (suppliedPages bs0).get ⟨k,hk⟩ = p at hcons htake
  obtain ⟨hsize,halign⟩ := page_request
  cases hff : firstFit 4096 4096 bs with
  | none =>
    rw [supplied_none bs hff] at hcons
    cases hcons
  | some r =>
    obtain ⟨q,bs'⟩ := r
    rw [supplied_some bs bs' q hff] at hcons
    obtain ⟨rfl,hleft⟩ := List.cons.inj hcons
    have hblocks := hb.blocks
    obtain ⟨heap',hrun,hinv,hlen,hzero,hkept,houtside⟩ := boxNew_room rs hrs s bs hb.paged.inv fuel
      (by omega) layoutPage4k (List.replicate 4096 0) (by decide)
      (by rw [List.length_replicate]; decide) q bs' (by rw [hsize, halign]; exact hff)
    rw [List.length_replicate] at hzero
    refine ⟨⟨heap',pageAt q::s.live,pageAt q::s.granted⟩,bs',?_,?_⟩
    · rw [newTable, hrun]
      rfl
    refine ⟨hk,⟨hinv,?_,?_,?_⟩,hleft,by omega,?_,?_,?_⟩
    · rw [htake, List.map_append, List.reverse_append, hb.paged.live]
      rfl
    · rw [htake, List.map_append, List.reverse_append, hb.paged.granted]
      rfl
    · intro c hc x hx
      have hlive : c ∈ s.live := by
        rw [hb.paged.live]
        exact List.mem_append_right _ hc
      exact (hkept c hlive x hx).trans (hb.paged.kept c hc x hx)
    · intro a
      rw [htake, List.mem_append, List.mem_singleton, ← hb.domain a, grow]
      by_cases he : a = q
      · rw [he, Function.update_self]
        simp
      · rw [Function.update_of_ne he]
        simp [he]
    · intro a t hat i
      have hi := i.isLt
      by_cases he : a = q
      · subst he
        rw [grow, Function.update_self] at hat
        obtain rfl := Option.some.inj hat
        exact readWord_zeroed heap'.memory a 4096 (8*i.val) hzero (by omega)
      · rw [grow, Function.update_of_ne he] at hat
        have hlive : m a ≠ none := by rw [hat]; exact Option.some_ne_none t
        rw [← hb.words a t hat i]
        apply readWord_congr
        intro x h1 h2
        unfold entryAddr at h1 h2
        apply hkept _ (backed_live rs s0 bs0 k bs s m hb a hlive)
        exact ⟨by change a ≤ x; omega,by change x < a+4096; omega⟩
    · intro x hx
      exact (houtside x hx).trans (hb.outside x hx)

omit hrs in
/-- When the supply is used up there is no memory for a table. -/
theorem backed_full (hk : k = (suppliedPages bs0).length) :
    newTable fuel s = .error .outOfMemory := by
  obtain ⟨hsize,halign⟩ := page_request
  have hnil : suppliedPages bs = [] := by rw [hb.left, hk, List.drop_length]
  have hblocks := hb.blocks
  cases hff : firstFit 4096 4096 bs with
  | none =>
    rw [newTable, boxNew_full rs s bs hb.paged.inv fuel (by omega) layoutPage4k _
      (by rw [hsize, halign]; exact hff)]
    rfl
  | some r =>
    rw [supplied_some bs r.2 r.1 hff] at hnil
    cases hnil

end New

include hi0

theorem backed_weight : weight m = k := by
  have hset : {a | m a ≠ none} = ↑((suppliedPages bs0).take k).toFinset := by
    ext a
    simp [hb.domain a]
  have hnodup := ((supplied_sound rs hrs s0 bs0 hi0).1).sublist (List.take_sublist k _)
  rw [weight, hset, Set.ncard_coe_finset, List.toFinset_card_of_nodup hnodup, List.length_take]
  exact Nat.min_eq_left hb.few

omit hrs hi0 in
theorem backed_finite : {a | m a ≠ none}.Finite := by
  apply Set.Finite.subset ((suppliedPages bs0).take k).toFinset.finite_toSet
  intro a ha
  simpa using (hb.domain a).mp ha

/-- The next table of the run on whole tables is the next page of the supply,
and past the supply an address of the other list. -/
theorem backed_next (extra : List ℕ) (a : ℕ)
    (h : takeFrom (suppliedPages bs0++extra) m = some a) :
    (∃ hk : k < (suppliedPages bs0).length, a = (suppliedPages bs0).get ⟨k,hk⟩) ∨
      k = (suppliedPages bs0).length := by
  have hsplit : suppliedPages bs0++extra =
      (suppliedPages bs0).take k++((suppliedPages bs0).drop k++extra) := by
    rw [← List.append_assoc, List.take_append_drop]
  rw [hsplit, takeFrom_next _ _ m (fun b hb' => (hb.domain b).mpr hb')] at h
  by_cases hk : k < (suppliedPages bs0).length
  · left
    have hnodup := (supplied_sound rs hrs s0 bs0 hi0).1
    have hfree : m (suppliedPages bs0)[k] = none := by
      by_contra hne
      obtain ⟨j,hj,he⟩ := List.mem_take_iff_getElem.mp ((hb.domain _).mp hne)
      have hjk := (hnodup.getElem_inj_iff).mp he
      omega
    rw [List.drop_eq_getElem_cons hk, List.cons_append, takeFrom, List.find?_cons, hfree] at h
    exact ⟨hk,(Option.some.inj h).symm⟩
  · right
    have hfew := hb.few
    omega

end One

section Operations
variable (extra : List ℕ) (fuel : ℕ) (hf : bs0.length+2*(suppliedPages bs0).length ≤ fuel)
include hrs hi0

theorem backed_bounded (s : Client) (m : TableMemory) (h : Backed rs s0 bs0 s m) :
    weight m ≤ (suppliedPages bs0).length := by
  obtain ⟨k,bs,hb⟩ := h
  rw [backed_weight rs s0 bs0 hrs hi0 k bs s m hb]
  exact hb.few

theorem sim_readValue (table : ℕ) (index : Fin 512) :
    Simulates (Backed rs s0 bs0) weight (suppliedPages bs0).length .outOfMemory
      (readValue table index)
      (PageTable.readValue table index) := by
  have hread : ∀ m r m', PageTable.readValue table index m = .ok (r,m') →
      ∃ t, m table = some t ∧ r = .ok (t index) ∧ m' = m := by
    intro m r m' h
    unfold PageTable.readValue at h
    cases ht : m table with
    | none =>
      rw [ht] at h
      cases h
    | some t =>
      rw [ht] at h
      cases h
      exact ⟨t,rfl,rfl,rfl⟩
  apply sim_idle (backed_bounded rs s0 bs0 hrs hi0)
  · intro m r m' h
    obtain ⟨t,-,-,hm⟩ := hread m r m' h
    exact hm
  · rintro s m r ⟨k,bs,hb⟩ h
    obtain ⟨t,ht,rfl,-⟩ := hread m r m h
    have hown := backed_owned rs s0 bs0 k bs s m hb table (by rw [ht]; exact Option.some_ne_none t)
      index
    apply observe_ok
    rw [hown, if_pos rfl, hb.words table t ht index, deref_some]

theorem sim_writeValue (table : ℕ) (index : Fin 512) (value : ℕ) (hv : value < 2^64) :
    Simulates (Backed rs s0 bs0) weight (suppliedPages bs0).length .outOfMemory
      (writeValue table index value) (PageTable.writeValue table index value) := by
  have hwrite : ∀ m r m', PageTable.writeValue table index value m = .ok (r,m') →
      m table ≠ none ∧ r = .ok () ∧ m' = write m table index value := by
    intro m r m' h
    unfold PageTable.writeValue at h
    cases ht : m table with
    | none =>
      rw [ht] at h
      cases h
    | some t =>
      rw [ht] at h
      cases h
      exact ⟨Option.some_ne_none t,rfl,rfl⟩
  constructor
  · intro m r m' h
    obtain ⟨-,-,rfl⟩ := hwrite m r m' h
    rw [weight_write]
  · rintro s m r m' ⟨k,bs,hb⟩ h _
    obtain ⟨ht,rfl,rfl⟩ := hwrite m r m' h
    refine ⟨_,if_pos (backed_owned rs s0 bs0 k bs s m hb table ht index),k,bs,?_⟩
    exact backed_write rs s0 bs0 hrs k bs s m hb table index value hv ht
  · intro s m r m' hst h hw
    obtain ⟨-,-,rfl⟩ := hwrite m r m' h
    have hle := backed_bounded rs s0 bs0 hrs hi0 s m hst
    rw [weight_write] at hw
    omega

include hf in
theorem sim_newTable :
    Simulates (Backed rs s0 bs0) weight (suppliedPages bs0).length .outOfMemory (newTable fuel)
      (PageTable.newTable (takeFrom (suppliedPages bs0++extra))) := by
  have hnew : ∀ m r m', PageTable.newTable (takeFrom (suppliedPages bs0++extra)) m = .ok (r,m') →
      ∃ a, takeFrom (suppliedPages bs0++extra) m = some a ∧ r = .ok a ∧ m' = grow m a 0 := by
    intro m r m' h
    unfold PageTable.newTable at h
    cases ha : takeFrom (suppliedPages bs0++extra) m with
    | none =>
      rw [ha] at h
      cases h
    | some a =>
      rw [ha] at h
      cases h
      exact ⟨a,rfl,rfl,rfl⟩
  have hweight : ∀ s m a k bs, BackedBy rs s0 bs0 k bs s m →
      takeFrom (suppliedPages bs0++extra) m = some a → weight (grow m a 0) = k+1 := by
    intro s m a k bs hb ha
    rw [weight_grow m a (backed_finite rs s0 bs0 k bs s m hb) (takeFrom_some _ m a ha).2,
      backed_weight rs s0 bs0 hrs hi0 k bs s m hb]
  constructor
  · intro m r m' h
    obtain ⟨a,-,-,rfl⟩ := hnew m r m' h
    exact weight_le_grow m a
  · rintro s m r m' ⟨k,bs,hb⟩ h hw
    obtain ⟨a,ha,rfl,rfl⟩ := hnew m r m' h
    rw [hweight s m a k bs hb ha] at hw
    rcases backed_next rs s0 bs0 hrs hi0 k bs s m hb extra a ha with ⟨hk,rfl⟩ | hk
    · obtain ⟨s',bs',hrun,hb'⟩ := backed_new rs s0 bs0 hrs k bs s m hb fuel hf hk
      exact ⟨s',hrun,k+1,bs',hb'⟩
    · omega
  · rintro s m r m' ⟨k,bs,hb⟩ h hw
    obtain ⟨a,ha,-,rfl⟩ := hnew m r m' h
    rw [hweight s m a k bs hb ha] at hw
    have hfew := hb.few
    exact backed_full rs s0 bs0 k bs s m hb fuel hf (by omega)

include hf in
/-- The run on the heap follows the run on whole tables. -/
theorem heap_sim (hbox : FreshBoxes (takeFrom (suppliedPages bs0++extra))) :
    TablesSim (Backed rs s0 bs0) weight (suppliedPages bs0).length .outOfMemory (heapTables fuel)
      (wholeTables (takeFrom (suppliedPages bs0++extra))) where
  bounded := backed_bounded rs s0 bs0 hrs hi0
  readValue := sim_readValue rs s0 bs0 hrs hi0
  writeValue := sim_writeValue rs s0 bs0 hrs hi0
  newTable := sim_newTable rs s0 bs0 hrs hi0 extra fuel hf
  address := by
    intro m a m' h
    change PageTable.newTable (takeFrom (suppliedPages bs0++extra)) m = _ at h
    unfold PageTable.newTable at h
    cases ha : takeFrom (suppliedPages bs0++extra) m with
    | none =>
      rw [ha] at h
      cases h
    | some b =>
      rw [ha] at h
      cases h
      have hlt := (hbox m a ha).2.1
      omega

end Operations

end Backed

end Wasabi.Paging.HeapTables
