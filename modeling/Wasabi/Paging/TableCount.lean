import Wasabi.Paging.Format

/-!
# How many tables a mapping takes

Repeating a call changes nothing, since the tables on its way are present and
hold the entries that it writes. On an empty root it allocates the tables of
the windows that its pages lie in, at each of three levels, and each of them
is linked in at one place.
-/

set_option autoImplicit false

namespace Wasabi.Paging.TableCount
open Wasabi.WordBits Wasabi.Outcome Wasabi.Paging.PageTable Wasabi.Paging.Mapping
open Wasabi.Paging.Refinement Wasabi.Paging.Calls Wasabi.Paging.Failure Wasabi.Paging.Format
open Wasabi.TableTree (Tree descend follow grow)

section Again
variable (boxNew : TableMemory → Option ℕ) (m : TableMemory)

theorem nextTable_linked (a b : ℕ) (i : Fin 512) (h : follow link m a i = some b) :
    nextTable boxNew a i m = .ok (.ok b,m) := by
  obtain ⟨t,hat,hlink⟩ := Option.bind_eq_some_iff.mp h
  unfold link at hlink
  split_ifs at hlink with hp
  rw [nextTable, run_bind _ _ _ _ _ (ensure_present boxNew m a i t hat hp),
    tableMut_ok m a i t hat hp, Option.some.inj hlink]

/-- A turn of the loop that finds its own entry leaves the memory as it is. -/
theorem page_again (root virtStart phys addr : ℕ) (attr : PageAttr) (hstart : virtStart ≤ addr)
    (hsum : phys+addr < 2^64) (hphys : 4096 ∣ phys+addr-virtStart)
    (he : entryAt m root addr = some ((phys+addr-virtStart) ||| attr.value)) :
    mapPage boxNew root virtStart phys attr addr m = .ok (.ok (),m) := by
  obtain ⟨t,hd,ht⟩ := Option.bind_eq_some_iff.mp he
  obtain ⟨a,hd,hat⟩ := Option.bind_eq_some_iff.mp hd
  obtain ⟨a3,h3,hd⟩ := Option.bind_eq_some_iff.mp hd
  obtain ⟨a2,h2,hd⟩ := Option.bind_eq_some_iff.mp hd
  obtain ⟨a1,h1,hd⟩ := Option.bind_eq_some_iff.mp hd
  cases hd
  have hframe : frameOf phys addr virtStart m = .ok (.ok (phys+addr-virtStart),m) := by
    rcases frameOf_cases m phys addr virtStart hstart with ⟨e,⟨-,hover⟩,-⟩ | ⟨x,m1,hx,rfl,rfl⟩
    · omega
    · exact hx
  have hvalue : t (calcIndex 12 addr) = (phys+addr-virtStart) ||| attr.value := Option.some.inj ht
  rw [mapPage_eq, upperLevels]
  simp only [bind_assoc]
  rw [run_bind _ _ _ _ _ (nextTable_linked boxNew m root a3 _ h3),
    run_bind _ _ _ _ _ (nextTable_linked boxNew m a3 a2 _ h2),
    run_bind _ _ _ _ _ (nextTable_linked boxNew m a2 a _ h1), run_bind _ _ _ _ _ hframe, setPage,
    if_neg (mask_zero _ hphys), writeValue_ok m a _ t hat, ← hvalue,
    TableGrowth.write_same m a t hat]

end Again

/-- The tables of `m'` that are not in `m`. -/
def newTables (m m' : TableMemory) : Set ℕ := {a | m' a ≠ none ∧ m a = none}

/-- The number of windows of `2^shift` bytes that the pages lie in. -/
def windows (c : Call) (shift : ℕ) : ℕ := ((pages c).map (fun v => v >>> shift)).toFinset.card

/-- The entry `r.2` of the table `r.1`, above the last level, links to `a`. -/
def Refers (m : TableMemory) (root : ℕ) (r : ℕ × Fin 512) (a : ℕ) : Prop :=
  (∃ p, p.length < 3 ∧ descend link m root p = some r.1) ∧ follow link m r.1 r.2 = some a

/-- Functions that identify the same elements take equally many values. -/
theorem card_same_kernel {α β γ : Type} [DecidableEq β] [DecidableEq γ] (l : List α) (f : α → β)
    (g : α → γ) (h : ∀ a ∈ l, ∀ b ∈ l, f a = f b ↔ g a = g b) :
    (l.map f).toFinset.card = (l.map g).toFinset.card := by
  have hf : (l.map f).toFinset = (l.map (fun a => (f a,g a))).toFinset.image Prod.fst := by
    ext x
    simp
  have hg : (l.map g).toFinset = (l.map (fun a => (f a,g a))).toFinset.image Prod.snd := by
    ext x
    simp
  rw [hf, hg, Finset.card_image_of_injOn, Finset.card_image_of_injOn]
  · rintro x hx y hy hxy
    obtain ⟨a,ha,rfl⟩ := List.mem_map.mp (List.mem_toFinset.mp hx)
    obtain ⟨b,hb,rfl⟩ := List.mem_map.mp (List.mem_toFinset.mp hy)
    exact Prod.ext ((h a ha b hb).mpr hxy) hxy
  · rintro x hx y hy hxy
    obtain ⟨a,ha,rfl⟩ := List.mem_map.mp (List.mem_toFinset.mp hx)
    obtain ⟨b,hb,rfl⟩ := List.mem_map.mp (List.mem_toFinset.mp hy)
    exact Prod.ext hxy ((h a ha b hb).mp hxy)

/-- The paths of `k` indices that the pages of a call go through. -/
def pathsOf (c : Call) (k : ℕ) : Finset (List (Fin 512)) :=
  ((pages c).map (fun v => (path v).take k)).toFinset

theorem pathsOf_length (c : Call) (k : ℕ) (hk : k ≤ 3) (q : List (Fin 512)) (hq : q ∈ pathsOf c k) :
    q.length = k := by
  obtain ⟨v,-,rfl⟩ := List.mem_map.mp (List.mem_toFinset.mp hq)
  rw [List.length_take]
  exact Nat.min_eq_left hk

theorem pathsOf_disjoint (c : Call) (j k : ℕ) (hj : j ≤ 3) (hk : k ≤ 3) (hne : j ≠ k) :
    Disjoint (pathsOf c j) (pathsOf c k) := by
  rw [Finset.disjoint_left]
  intro q hqj hqk
  exact hne ((pathsOf_length c j hj q hqj).symm.trans (pathsOf_length c k hk q hqk))

/-- Below `2^48` the first indices of an address name its window. -/
theorem path_take_iff (v w : ℕ) (hv : v < 2^48) (hw : w < 2^48) :
    ((path v).take 1 = (path w).take 1 ↔ v >>> 39 = w >>> 39) ∧
      ((path v).take 2 = (path w).take 2 ↔ v >>> 30 = w >>> 30) ∧
      ((path v).take 3 = (path w).take 3 ↔ v >>> 21 = w >>> 21) := by
  simp only [path, List.take, List.cons.injEq, and_true, Fin.ext_iff, index_eq,
    Nat.shiftRight_eq_div_pow]
  refine ⟨?_,?_,?_⟩
  · omega
  · omega
  · omega

theorem pathsOf_card (c : Call) (hc : Aligned c) (hend : c.virtEnd ≤ 2^48) :
    (pathsOf c 1).card = windows c 39 ∧ (pathsOf c 2).card = windows c 30 ∧
      (pathsOf c 3).card = windows c 21 := by
  have hlt : ∀ v ∈ pages c, v < 2^48 := by
    intro v hv
    have hb := (pages_bounds c hc v hv).2.2
    omega
  have hsame := fun v hv w hw => path_take_iff v w (hlt v hv) (hlt w hw)
  refine ⟨card_same_kernel _ _ _ ?_,card_same_kernel _ _ _ ?_,card_same_kernel _ _ _ ?_⟩
  · exact fun v hv w hw => (hsame v hv w hw).1
  · exact fun v hv w hw => (hsame v hv w hw).2.1
  · exact fun v hv w hw => (hsame v hv w hw).2.2

theorem mem_paths (c : Call) (q : List (Fin 512)) :
    q ∈ pathsOf c 1 ∪ (pathsOf c 2 ∪ pathsOf c 3) ↔
      q ≠ [] ∧ q.length ≤ 3 ∧ ∃ v ∈ pages c, q <+: path v := by
  constructor
  · intro hq
    have htake : ∃ k, 1 ≤ k ∧ k ≤ 3 ∧ q ∈ pathsOf c k := by
      rcases Finset.mem_union.mp hq with hq | hq
      · exact ⟨1,by decide,by decide,hq⟩
      rcases Finset.mem_union.mp hq with hq | hq
      · exact ⟨2,by decide,by decide,hq⟩
      · exact ⟨3,by decide,by decide,hq⟩
    obtain ⟨k,hk1,hk3,hqk⟩ := htake
    have hlen := pathsOf_length c k hk3 q hqk
    obtain ⟨v,hv,rfl⟩ := List.mem_map.mp (List.mem_toFinset.mp hqk)
    exact ⟨List.ne_nil_of_length_pos (by omega),by omega,v,hv,List.take_prefix k (path v)⟩
  · rintro ⟨hne,hlen,v,hv,hpre⟩
    have hpos := List.length_pos_iff.mpr hne
    have hmem : q ∈ pathsOf c q.length :=
      List.mem_toFinset.mpr (List.mem_map.mpr ⟨v,hv,(List.prefix_iff_eq_take.mp hpre).symm⟩)
    have hcases : q.length = 1 ∨ q.length = 2 ∨ q.length = 3 := by omega
    rw [Finset.mem_union, Finset.mem_union]
    rcases hcases with h | h | h
    · exact Or.inl (h ▸ hmem)
    · exact Or.inr (Or.inl (h ▸ hmem))
    · exact Or.inr (Or.inr (h ▸ hmem))

section Fresh
variable (boxNew : TableMemory → Option ℕ) (base : TableMemory) (root : ℕ) (m m' : TableMemory)
  (hnew : newPml4 boxNew base = .ok (.ok root,m)) (c : Call) (ht : PageTree base m' root)
  (h : Remaps root (entryOf c) m (pages c) m')
include hnew

theorem fresh_root : m root ≠ none ∧ (∀ a, base a ≠ none → m a ≠ none) ∧
    ∀ q, q ≠ [] → descend link m root q = none := by
  cases hb : boxNew base with
  | none =>
    rw [newPml4, newTable, hb] at hnew
    cases hnew
  | some a =>
    rw [newPml4, newTable, hb] at hnew
    cases hnew
    have hroot : grow base root 0 root = some (fun _ => 0) := by rw [grow, Function.update_self]
    refine ⟨by rw [hroot]; exact Option.some_ne_none _,?_,?_⟩
    · intro b hbase
      by_cases he : b = root
      · rw [he, hroot]
        exact Option.some_ne_none _
      · rwa [grow, Function.update_of_ne he]
    · intro q hq
      cases q with
      | nil => exact absurd rfl hq
      | cons i q =>
        have hlink : link 0 = none := rfl
        rw [descend, List.foldlM_cons, follow, hroot, Option.bind_some, hlink]
        rfl

include ht h

/-- The new tables are at the ends of the paths of the pages. -/
theorem mem_newTables (a : ℕ) : a ∈ newTables m m' ↔
    ∃ q ∈ pathsOf c 1 ∪ (pathsOf c 2 ∪ pathsOf c 3), descend link m' root q = some a := by
  obtain ⟨hroot,hbase,hblank⟩ := fresh_root boxNew base root m hnew
  constructor
  · rintro ⟨hlive,hn⟩
    obtain ⟨t,hat⟩ := Option.ne_none_iff_exists'.mp hlive
    rcases ht.reached a t hat with ⟨t',hb⟩ | ⟨q,hq,hqa⟩
    · exact absurd hn (hbase a (by rw [hb]; exact Option.some_ne_none _))
    · have hne : q ≠ [] := by
        rintro rfl
        cases hqa
        exact hroot hn
      have hsome : descend link m' root q ≠ none := by
        rw [hqa]
        exact Option.some_ne_none a
      have hpaths := (remaps_paths root _ m m' _ h q hq).mp hsome
      rw [hblank q hne] at hpaths
      exact ⟨q,(mem_paths c q).mpr ⟨hne,hq,hpaths.resolve_left (fun hc => hc rfl)⟩,hqa⟩
  · rintro ⟨q,hmem,hqa⟩
    obtain ⟨hne,hq,-⟩ := (mem_paths c q).mp hmem
    obtain ⟨t,hat⟩ := ht.tree.live q a hq hqa
    exact ⟨by rw [hat]; exact Option.some_ne_none _,
      remaps_fresh root _ m m' _ h q a hq (hblank q hne) hqa⟩

theorem newTables_count (hc : Aligned c) (hend : c.virtEnd ≤ 2^48) :
    (newTables m m').ncard = windows c 39+windows c 30+windows c 21 := by
  have hset : newTables m m' = {a | ∃ q ∈ pathsOf c 1 ∪ (pathsOf c 2 ∪ pathsOf c 3),
      descend link m' root q = some a} := Set.ext (mem_newTables boxNew base root m m' hnew c ht h)
  obtain ⟨h1,h2,h3⟩ := pathsOf_card c hc hend
  rw [hset, TableGrowth.tables_ncard link 3 m' root ht.tree, Finset.card_union_of_disjoint,
    Finset.card_union_of_disjoint, h1, h2, h3, Nat.add_assoc]
  · exact pathsOf_disjoint c 2 3 (by decide) (by decide) (by decide)
  · rw [Finset.disjoint_union_right]
    exact ⟨pathsOf_disjoint c 1 2 (by decide) (by decide) (by decide),
      pathsOf_disjoint c 1 3 (by decide) (by decide) (by decide)⟩
  · exact fun q hq => ((mem_paths c q).mp hq).2.1
  · intro q hq
    obtain ⟨-,hlen,v,hv,hpre⟩ := (mem_paths c q).mp hq
    exact (remaps_paths root _ m m' _ h q hlen).mpr (Or.inr ⟨v,hv,hpre⟩)

theorem newTables_linked (a : ℕ) (ha : a ∈ newTables m m') : ∃! r, Refers m' root r a := by
  obtain ⟨q,hmem,hqa⟩ := (mem_newTables boxNew base root m m' hnew c ht h a).mp ha
  obtain ⟨hne,hlen,-⟩ := (mem_paths c q).mp hmem
  exact TableGrowth.linked_once link 3 m' root ht.tree q a hne hlen hqa

end Fresh

/-- After a call its pages have their entries, so a second one is idle. -/
theorem call_again (boxNew : TableMemory → Option ℕ) (root : ℕ) (m m' : TableMemory) (c : Call)
    (hc : Aligned c) (hend : c.virtEnd ≤ 2^48) (hsum : c.phys+c.virtEnd ≤ 2^52)
    (h : Remaps root (entryOf c) m (pages c) m') :
    callMapping boxNew root c m' = .ok (.ok (),m') := by
  rw [call_loop boxNew root c hc]
  apply forM_idle
  intro v hv
  obtain ⟨hal,hl,hr⟩ := pages_bounds c hc v hv
  have h1 := hc.virtStart
  have h3 := hc.phys
  apply page_again boxNew m' root c.virtStart c.phys v c.attr hl (by omega) (by omega)
  apply last_entry c hc root m m' h v hv
  intro u hu hlt
  have hur := (pages_bounds c hc u hu).2.2
  omega

/-- Calls within the lower half and physical memory are idempotent, and on an
empty root they allocate one table for each window of their pages. -/
theorem mapping_minimal (boxNew : TableMemory → Option ℕ) (hbox : FreshBoxes boxNew)
    (base : TableMemory) (root : ℕ) (c : Call) (hc : Aligned c) (hend : c.virtEnd ≤ 2^48)
    (hsum : c.phys+c.virtEnd ≤ 2^52) (m : TableMemory) (hr : Reachable boxNew base root m)
    (hmem : callMapping boxNew root c m ≠ .error .outOfMemory) :
    ∃ m', callMapping boxNew root c m = .ok (.ok (),m') ∧
      callMapping boxNew root c m' = .ok (.ok (),m') ∧
      (newPml4 boxNew base = .ok (.ok root,m) →
        (newTables m m').ncard = windows c 39+windows c 30+windows c 21 ∧
          ∀ a ∈ newTables m m', ∃! r, Refers m' root r a) := by
  obtain ⟨m',hrun,ht',h⟩ := aligned_returns boxNew hbox base root m hr c hc
    (fun v hv => by have hb := (pages_bounds c hc v hv).2.2; omega) hmem
  refine ⟨m',hrun,call_again boxNew root m m' c hc hend hsum h,?_⟩
  intro hnew
  exact ⟨newTables_count boxNew base root m m' hnew c ht' h hc hend,
    newTables_linked boxNew base root m m' hnew c ht' h⟩

theorem mapping_minimal_straddling :
    ∃ m', callMapping firstFree 0x100000 straddling freshTables = .ok (.ok (),m') ∧
      callMapping firstFree 0x100000 straddling m' = .ok (.ok (),m') ∧
      (newTables freshTables m').ncard = 1+1+2 ∧
      ∀ a ∈ newTables freshTables m', ∃! r, Refers m' 0x100000 r a := by
  obtain ⟨m',hrun,hagain,hnew⟩ := mapping_minimal firstFree firstFree_fresh (fun _ => none) 0x100000
    straddling (by decide) (by decide) (by decide) freshTables freshTables_reachable straddling_runs
  obtain ⟨hcount,hlinked⟩ := hnew rfl
  have hwindows : windows straddling 39+windows straddling 30+windows straddling 21 = 1+1+2 := by
    decide
  exact ⟨m',hrun,hagain,hcount.trans hwindows,hlinked⟩

end Wasabi.Paging.TableCount
