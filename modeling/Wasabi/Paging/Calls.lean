import Wasabi.Paging.Refinement

/-!
# Calls with any arguments

A call with misaligned arguments is rejected before the loop. Any other call
writes the entries of its pages in turn, in tables that are still a tree, and
no turn returns early. What it leaves is a relation between two memories that
later results take apart.
-/

set_option autoImplicit false

namespace Wasabi.Paging.Calls
open Wasabi.Rust Wasabi.WordBits Wasabi.Outcome Wasabi.Paging.PageTable Wasabi.Paging.Mapping
open Wasabi.Paging.Refinement
open Wasabi.TableTree (descend)
open Wasabi.TableGrowth (Grown entry)

/-- The last-level entry on the way to an address. -/
def entryAt (m : TableMemory) (root v : ℕ) : Option ℕ := entry link m root (path v) (calcIndex 12 v)

/-- Both addresses select the same last-level entry. -/
def SamePage (v w : ℕ) : Prop := path v = path w ∧ calcIndex 12 v = calcIndex 12 w

theorem samePage_iff (v w : ℕ) (hv : 4096 ∣ v) (hw : 4096 ∣ w) :
    SamePage v w ↔ v%2^48 = w%2^48 := by
  constructor
  · rintro ⟨hp,hi⟩
    exact indices_low v w hv hw hp hi
  · intro h
    have h39 : calcIndex 39 v = calcIndex 39 w := Fin.ext (by simp only [index_eq]; omega)
    have h30 : calcIndex 30 v = calcIndex 30 w := Fin.ext (by simp only [index_eq]; omega)
    have h21 : calcIndex 21 v = calcIndex 21 w := Fin.ext (by simp only [index_eq]; omega)
    have h12 : calcIndex 12 v = calcIndex 12 w := Fin.ext (by simp only [index_eq]; omega)
    exact ⟨by rw [path, h39, h30, h21, path],h12⟩

/-- The memories after the entries of some pages were written in turn. -/
inductive Remaps (root : ℕ) (value : ℕ → ℕ) (m : TableMemory) : List ℕ → TableMemory → Prop
  | nil : Remaps root value m [] m
  | snoc (done : List ℕ) (addr : ℕ) (m1 m2 : TableMemory) :
      Remaps root value m done m1 → Paged m1 m2 root addr (value addr) →
      Remaps root value m (done++[addr]) m2

section Effect
variable (root : ℕ) (value : ℕ → ℕ) (m m' : TableMemory) (done : List ℕ)
  (h : Remaps root value m done m')
include h

theorem remaps_kept (a : ℕ) (ha : m a ≠ none) : m' a ≠ none := by
  induction h with
  | nil => exact ha
  | snoc done addr m1 m2 _ hp ih => exact hp.grown.kept a ih

theorem remaps_paths (q : List (Fin 512)) (hq : q.length ≤ 3) : descend link m' root q ≠ none ↔
    descend link m root q ≠ none ∨ ∃ v ∈ done, q <+: path v := by
  induction h with
  | nil => simp
  | snoc done addr m1 m2 _ hp ih =>
    rw [hp.grown.paths q hq, ih]
    simp [or_assoc, or_and_right, exists_or]

theorem remaps_fresh (q : List (Fin 512)) (a : ℕ) (hq : q.length ≤ 3)
    (hn : descend link m root q = none) (ha : descend link m' root q = some a) : m a = none := by
  induction h with
  | nil =>
    rw [hn] at ha
    cases ha
  | snoc done addr m1 m2 h1 hp ih =>
    cases h1q : descend link m1 root q with
    | none =>
      by_contra hne
      exact remaps_kept root value m m1 done h1 a hne (hp.grown.fresh q a hq h1q ha)
    | some c =>
      have hc := hp.grown.same q c hq h1q
      rw [ha] at hc
      exact ih (h1q.trans hc.symm)

/-- An entry that no page of the call selects keeps what it maps. -/
theorem remaps_other (v : ℕ) (hv : ∀ w ∈ done, ¬ SamePage v w) :
    (entryAt m' root v).filter isPresent = (entryAt m root v).filter isPresent := by
  induction h with
  | nil => rfl
  | snoc done addr m1 m2 _ hp ih =>
    have hne : ¬ (path v = path addr ∧ calcIndex 12 v = calcIndex 12 addr) := hv addr (by simp)
    rw [← ih (fun w hw => hv w (List.mem_append_left _ hw)), entryAt, entryAt,
      hp.entries (path v) _ rfl, if_neg hne]
    split_ifs with hnew
    · rw [TableGrowth.entry_none link m1 root (path v) _ hnew.2]
      rfl
    · rfl

/-- The last page that selects an entry determines it. -/
theorem remaps_last (pre post : List ℕ) (w : ℕ) (hd : done = pre++w::post)
    (hpost : ∀ u ∈ post, ¬ SamePage w u) : entryAt m' root w = some (value w) := by
  induction h generalizing post with
  | nil => simp at hd
  | snoc done addr m1 m2 _ hp ih =>
    rw [entryAt, hp.entries (path w) _ rfl]
    rcases List.eq_nil_or_concat post with rfl | ⟨post',u,rfl⟩
    · obtain ⟨-,hw⟩ := List.append_inj' hd rfl
      cases hw
      rw [if_pos ⟨rfl,rfl⟩]
    · rw [List.concat_eq_append] at hd hpost
      rw [← List.cons_append, ← List.append_assoc] at hd
      obtain ⟨rfl,hu⟩ := List.append_inj' hd rfl
      cases hu
      have hold := ih post' rfl (fun x hx => hpost x (List.mem_append_left _ hx))
      have hne : ¬ (path w = path addr ∧ calcIndex 12 w = calcIndex 12 addr) :=
        hpost addr (by simp)
      rw [if_neg hne, if_neg]
      · exact hold
      · rintro ⟨-,hnone⟩
        rw [entryAt, TableGrowth.entry_none link m1 root (path w) _ hnone] at hold
        cases hold

end Effect

def pages (c : Call) : List ℕ := stepBy c.virtStart c.virtEnd pageSize

/-- The entry that a call writes for one of its pages. -/
def entryOf (c : Call) (v : ℕ) : ℕ := (c.phys+v-c.virtStart) ||| c.attr.value

structure Aligned (c : Call) : Prop where
  virtStart : 4096 ∣ c.virtStart
  virtEnd : 4096 ∣ c.virtEnd
  phys : 4096 ∣ c.phys

instance (c : Call) : Decidable (Aligned c) :=
  decidable_of_iff (4096 ∣ c.virtStart ∧ 4096 ∣ c.virtEnd ∧ 4096 ∣ c.phys)
    ⟨fun ⟨h1,h2,h3⟩ => ⟨h1,h2,h3⟩,fun ⟨h1,h2,h3⟩ => ⟨h1,h2,h3⟩⟩

theorem mem_pages (c : Call) (hc : Aligned c) (v : ℕ) (hv : 4096 ∣ v) :
    v ∈ pages c ↔ c.virtStart ≤ v ∧ v < c.virtEnd :=
  mem_stepBy c.virtStart c.virtEnd v hc.virtStart hc.virtEnd hv

theorem pages_bounds (c : Call) (hc : Aligned c) (v : ℕ) (hv : v ∈ pages c) :
    4096 ∣ v ∧ c.virtStart ≤ v ∧ v < c.virtEnd := by
  have hal := stepBy_aligned _ _ _ hc.virtStart hv
  exact ⟨hal,(mem_pages c hc v hal).mp hv⟩

theorem mask_nonzero (a : ℕ) (h : ¬ 4096 ∣ a) : a &&& attrMask ≠ 0 := by
  change a &&& (2^12-1) ≠ 0
  rw [Nat.and_two_pow_sub_one_eq_mod]
  omega

section Call
variable (boxNew : TableMemory → Option ℕ) (base : TableMemory) (root : ℕ) (m : TableMemory)
  (c : Call)

theorem call_rejects (hc : ¬ Aligned c) :
    ∃ message, callMapping boxNew root c m = .ok (.error message,m) := by
  unfold callMapping createMapping
  by_cases h1 : 4096 ∣ c.virtStart
  · rw [if_neg (mask_zero _ h1)]
    by_cases h2 : 4096 ∣ c.virtEnd
    · rw [if_neg (mask_zero _ h2)]
      by_cases h3 : 4096 ∣ c.phys
      · exact absurd ⟨h1,h2,h3⟩ hc
      · rw [if_pos (mask_nonzero _ h3)]
        exact ⟨_,rfl⟩
    · rw [if_pos (mask_nonzero _ h2)]
      exact ⟨_,rfl⟩
  · rw [if_pos (mask_nonzero _ h1)]
    exact ⟨_,rfl⟩

theorem call_loop (hc : Aligned c) : callMapping boxNew root c =
    (pages c).forM (mapPage boxNew root c.virtStart c.phys c.attr) := by
  rw [callMapping, createMapping, if_neg (mask_zero _ hc.virtStart),
    if_neg (mask_zero _ hc.virtEnd), if_neg (mask_zero _ hc.phys)]
  rfl

/-- A call with aligned arguments writes the entries of its pages, unless
memory runs out or a sum of the address arithmetic does not fit. -/
theorem call_effect (hbox : FreshBoxes boxNew) (ht : PageTree base m root) (hc : Aligned c) :
    Yields (fun e => Exhausted boxNew base e ∨ ∃ v ∈ pages c, Overflows c.phys v e)
      (callMapping boxNew root c) m
      (fun _ m' => PageTree base m' root ∧ Remaps root (entryOf c) m (pages c) m') := by
  rw [call_loop boxNew root c hc]
  have hloop := yields_forM (fun e => Exhausted boxNew base e ∨ ∃ v ∈ pages c, Overflows c.phys v e)
    (mapPage boxNew root c.virtStart c.phys c.attr)
    (fun done m' => PageTree base m' root ∧ Remaps root (entryOf c) m done m')
    (pages c) [] m ?_ ⟨ht,.nil⟩
  · rwa [List.nil_append] at hloop
  · rintro done addr m1 haddr ⟨ht1,hr1⟩
    obtain ⟨hal,hle,-⟩ := pages_bounds c hc addr haddr
    have h1 := hc.virtStart
    have h3 := hc.phys
    have hpage := page_effect boxNew hbox base root m1 ht1 c.virtStart c.phys addr c.attr hle
      (by omega)
    apply yields_mono _ _ _ _ _ (yields_weaken _ _ _ _ _ ?_ hpage)
    · rintro _ m2 ⟨ht2,-,hp2⟩
      exact ⟨ht2,.snoc done addr m1 m2 hr1 hp2⟩
    · rintro e (he | he)
      · exact Or.inl he
      · exact Or.inr ⟨addr,haddr,he⟩

end Call

/-- The memories that calls on one root reach, whatever they returned. -/
inductive Reachable (boxNew : TableMemory → Option ℕ) (base : TableMemory) (root : ℕ) :
    TableMemory → Prop
  | new (m : TableMemory) : newPml4 boxNew base = .ok (.ok root,m) → Reachable boxNew base root m
  | call (m m' : TableMemory) (c : Call) (result : Except String Unit) :
      Reachable boxNew base root m → callMapping boxNew root c m = .ok (result,m') →
      Reachable boxNew base root m'

theorem reachable_tree (boxNew : TableMemory → Option ℕ) (hbox : FreshBoxes boxNew)
    (base : TableMemory) (root : ℕ) (m : TableMemory) (h : Reachable boxNew base root m) :
    PageTree base m root := by
  induction h with
  | new m hnew =>
    rcases new_pml4 boxNew hbox base with ⟨e,-,he⟩ | ⟨r,m1,he,ht,-⟩
    · rw [he] at hnew
      cases hnew
    · rw [he] at hnew
      cases hnew
      exact ht
  | call m m' c result _ hrun ih =>
    by_cases hc : Aligned c
    · obtain ⟨-,-,ht,-⟩ := yields_returned _ _ _ _ _ _
        (call_effect boxNew base root m c hbox ih hc) hrun
      exact ht
    · obtain ⟨message,he⟩ := call_rejects boxNew root m c hc
      rw [he] at hrun
      cases hrun
      exact ih

end Wasabi.Paging.Calls
