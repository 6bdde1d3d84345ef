import Wasabi.Paging.Mapping

/-!
# Sequences of mapping calls

The abstract mapping of a list of calls is given by the last call that covers
a page. The tables built from an empty root refine it, whatever the order and
overlap of the ranges.
-/

set_option autoImplicit false

namespace Wasabi.Paging.Refinement
open Wasabi.Rust Wasabi.Outcome Wasabi.Paging.PageTable Wasabi.Paging.Mapping
open Wasabi.TableTree (grow)

/-- The translation that a sequence of calls asks for. -/
def lastCovering (calls : List Call) (v : ℕ) : Option (ℕ × ℕ) :=
  (calls.reverse.find? (fun c => c.covers v)).bind (fun c => c.target v)

theorem lastCovering_snoc (calls : List Call) (c : Call) (v : ℕ) :
    lastCovering (calls++[c]) v = if c.covers v then c.target v else lastCovering calls v := by
  rw [lastCovering, List.reverse_append, List.reverse_singleton, List.singleton_append,
    List.find?_cons]
  cases c.covers v <;> rfl

section Build
variable (boxNew : TableMemory → Option ℕ)

/-- `PML4::new()` and the calls on it; the first `Err` would end the run. -/
def mapAll (calls : List Call) : Build ℕ := do
  let root ← newPml4 boxNew
  calls.forM (callMapping boxNew root)
  pure root

theorem new_pml4 (hbox : FreshBoxes boxNew) (m : TableMemory) :
    Yields (Exhausted boxNew m) (newPml4 boxNew) m
      (fun root m' => PageTree m m' root ∧ Boxed boxNew m m' ∧ m root = none ∧ m' root ≠ none ∧
        ∀ v, walk m' root v = none) := by
  cases hnew : boxNew m with
  | none =>
    left
    refine ⟨.outOfMemory,⟨rfl,m,∅,hnew,Nat.zero_le _,fun a t ha => Or.inl ⟨t,ha⟩⟩,?_⟩
    rw [newPml4, newTable, hnew]
  | some a =>
    have hroot : grow m a 0 a = some (fun _ => 0) := by rw [grow, Function.update_self]
    obtain ⟨ht,hin,hr⟩ := TableTree.tree_blank link leaf 3 (grow m a 0) a 0 hroot rfl
    refine Or.inr ⟨a,grow m a 0,by rw [newPml4, newTable, hnew],
      ⟨ht,hin _ rfl,TableTree.reached_blank link 3 m a 0⟩,
      boxed_grow boxNew m m a hnew,
      (hbox m a hnew).2.2,by simp [hroot],?_⟩
    exact fun v => hr (path v) (calcIndex 12 v) (by decide : 0 < 3)

theorem map_calls (hbox : FreshBoxes boxNew) (base : TableMemory) (root : ℕ) (m : TableMemory)
    (ht : PageTree base m root) (hw : ∀ v, walk m root v = none) (calls : List Call)
    (hc : ∀ c ∈ calls, CallOk c) :
    Yields (Exhausted boxNew base) (calls.forM (callMapping boxNew root)) m
      (fun _ m' => PageTree base m' root ∧ Boxed boxNew m m' ∧
        ∀ v, 4096 ∣ v → v < 2^48 → walk m' root v = lastCovering calls v) := by
  have hloop := yields_forM (Exhausted boxNew base) (callMapping boxNew root)
    (fun done m' => PageTree base m' root ∧ Boxed boxNew m m' ∧
      ∀ v, 4096 ∣ v → v < 2^48 → walk m' root v = lastCovering done v)
    calls [] m ?_ ⟨ht,boxed_refl boxNew m,fun v _ _ => hw v⟩
  · rwa [List.nil_append] at hloop
  · rintro done c m1 hcm ⟨ht1,hb1,hw1⟩
    apply yields_mono _ _ _ _ _ (call_mapping boxNew hbox base root m1 ht1 c (hc c hcm))
    rintro _ m2 ⟨ht2,hb2,hw2⟩
    refine ⟨ht2,boxed_trans boxNew _ _ _ hb1 hb2,?_⟩
    intro v hv hv'
    rw [lastCovering_snoc, hw2 v hv hv', hw1 v hv hv']

/-- If `Box::new` does not run out of memory, every call returns `Ok` and the
walk translates each page as the last call that covers it. -/
theorem mapping_refines (hbox : FreshBoxes boxNew) (m : TableMemory) (calls : List Call)
    (hc : ∀ c ∈ calls, CallOk c) (hmem : mapAll boxNew calls m ≠ .error .outOfMemory) :
    ∃ root m', mapAll boxNew calls m = .ok (.ok root,m') ∧
      ∀ v, 4096 ∣ v → v < 2^48 → walk m' root v = lastCovering calls v := by
  have hall : Yields (Exhausted boxNew m) (mapAll boxNew calls) m
      (fun root m' => ∀ v, 4096 ∣ v → v < 2^48 → walk m' root v = lastCovering calls v) := by
    apply yields_bind _ _ _ _ _ _ (new_pml4 boxNew hbox m)
    rintro root m1 ⟨ht1,-,-,-,hw1⟩
    apply yields_bind _ _ _ _ _ _ (map_calls boxNew hbox m root m1 ht1 hw1 calls hc)
    rintro _ m2 ⟨-,-,hw2⟩
    exact yields_pure _ _ _ _ hw2
  apply hall.resolve_left
  rintro ⟨e,⟨rfl,-⟩,he⟩
  exact hmem he

end Build

/-- Takes the first free address of a short list. -/
def firstFree (m : TableMemory) : Option ℕ :=
  [0x100000,0x101000,0x102000,0x103000,0x104000,0x105000].find? (fun a => (m a).isNone)

theorem firstFree_fresh : FreshBoxes firstFree := by
  intro m a h
  have hm := List.mem_of_find?_eq_some h
  have hn := List.find?_some h
  refine ⟨?_,?_,by simpa using hn⟩
  · revert a
    simp only [List.mem_cons, List.not_mem_nil, or_false]
    omega
  · simp only [List.mem_cons, List.not_mem_nil, or_false] at hm
    omega

/-- Three pages, one of them unmapped again, and an empty reversed range. -/
def sampleCalls : List Call :=
  [⟨0x1ff000,0x202000,0x5000,.readWriteKernel⟩,⟨0x201000,0x1000,0,.readWriteIo⟩,
    ⟨0x200000,0x201000,0,.notPresent⟩]

theorem mapping_refines_sample :
    ∃ root m', mapAll firstFree sampleCalls (fun _ => none) = .ok (.ok root,m') ∧
      ∀ v, 4096 ∣ v → v < 2^48 → walk m' root v = lastCovering sampleCalls v := by
  apply mapping_refines firstFree firstFree_fresh _ sampleCalls (by decide)
  exact ok_not_fault _ _ (by decide +kernel)

end Wasabi.Paging.Refinement
