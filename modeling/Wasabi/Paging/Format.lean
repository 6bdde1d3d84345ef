import Wasabi.Paging.Failure

/-!
# What the page-table format can express

The processor translates canonical addresses only, and an entry has room for
frames below `2^52`. A call tests neither: it computes the indices from the
low 48 bits and stores the frame as it is. What it does is therefore what it
was asked for exactly if its pages and frames stay within the format.
-/

set_option autoImplicit false

namespace Wasabi.Paging.Format
open Wasabi.Rust Wasabi.WordBits Wasabi.Outcome Wasabi.Paging.PageTable Wasabi.Paging.Mapping
open Wasabi.Paging.Refinement Wasabi.Paging.Calls Wasabi.Paging.Failure

/-- Bits 63 to 48 repeat bit 47. -/
def Canonical (v : ℕ) : Prop := v < 2^47 ∨ (2^64-2^47 ≤ v ∧ v < 2^64)

instance (v : ℕ) : Decidable (Canonical v) := instDecidableOr

theorem canonical_injective (v w : ℕ) (hv : Canonical v) (hw : Canonical w)
    (h : v%2^48 = w%2^48) : v = w := by
  unfold Canonical at hv hw
  omega

/-- The last-level entry where the walk for an address ends. -/
def leafEntry (m : TableMemory) (root v : ℕ) : Option ℕ :=
  if Canonical v then entryAt m root v else none

/-- The entry that translates an address, with its frame and its flags. -/
def translation (m : TableMemory) (root v : ℕ) : Option ℕ := (leafEntry m root v).filter isPresent

/-- Bits 51 to 12 are the frame, bits 11 to 0 the flags, and the rest is clear. -/
def Decodes (e frame flags : ℕ) : Prop := e < 2^52 ∧ e/4096*4096 = frame ∧ e%4096 = flags

/-- All pages of the range and no others have the translation asked for. -/
structure Expressed (c : Call) (m m' : TableMemory) (root : ℕ) : Prop where
  outside : ∀ v, v < 2^64 → 4096 ∣ v → ¬ (c.virtStart ≤ v ∧ v < c.virtEnd) →
    translation m' root v = translation m root v
  inside : ∀ v, 4096 ∣ v → c.virtStart ≤ v → v < c.virtEnd → ∃ e,
    leafEntry m' root v = some e ∧ Decodes e (c.phys+(v-c.virtStart)) c.attr.value

/-- Every page is canonical and its frame has room in an entry. -/
def Expressible (c : Call) : Prop := ∀ v, 4096 ∣ v → c.virtStart ≤ v → v < c.virtEnd →
  Canonical v ∧ c.phys+(v-c.virtStart) < 2^52

theorem entryOf_decodes (c : Call) (hc : Aligned c) (v : ℕ) (hv : 4096 ∣ v)
    (hle : c.virtStart ≤ v) (hlt : c.phys+(v-c.virtStart) < 2^52) :
    Decodes (entryOf c v) (c.phys+(v-c.virtStart)) c.attr.value := by
  obtain ⟨h1,-,h3⟩ := hc
  have hattr := attr_lt c.attr
  rw [entryOf, Nat.add_sub_assoc hle, or_low 12 _ _ (by omega) (by omega)]
  exact ⟨by omega,by omega,by omega⟩

/-- The pages are visited in increasing order. -/
theorem pages_split (c : Call) (v : ℕ) (hv : v ∈ pages c) :
    ∃ pre post, pages c = pre++v::post ∧ ∀ u ∈ post, v < u ∧ u ∈ pages c := by
  obtain ⟨pre,post,hp⟩ := List.append_of_mem hv
  have hsorted : (pages c).Pairwise (·<·) := List.pairwise_lt_range' pageSize (by decide)
  rw [hp] at hsorted
  refine ⟨pre,post,hp,?_⟩
  intro u hu
  refine ⟨(List.pairwise_cons.mp (List.pairwise_append.mp hsorted).2.1).1 u hu,?_⟩
  rw [hp]
  simp [hu]

section Remapped
variable (c : Call) (hc : Aligned c) (root : ℕ) (m m' : TableMemory)
  (h : Remaps root (entryOf c) m (pages c) m')
include hc h

theorem unselected_kept (v : ℕ) (hv : 4096 ∣ v) (hne : ∀ w ∈ pages c, w%2^48 ≠ v%2^48) :
    translation m' root v = translation m root v := by
  unfold translation leafEntry
  split_ifs
  · apply remaps_other root _ m m' _ h
    intro w hw hsame
    exact hne w hw ((samePage_iff v w hv (pages_bounds c hc w hw).1).mp hsame).symm
  · rfl

theorem last_entry (w : ℕ) (hw : w ∈ pages c)
    (hlast : ∀ u ∈ pages c, w < u → u%2^48 ≠ w%2^48) :
    entryAt m' root w = some (entryOf c w) := by
  obtain ⟨pre,post,hp,hpost⟩ := pages_split c w hw
  apply remaps_last root _ m m' _ h pre post w hp
  intro u hu hsame
  obtain ⟨hlt,hmem⟩ := hpost u hu
  exact hlast u hmem hlt
    ((samePage_iff w u (pages_bounds c hc w hw).1 (pages_bounds c hc u hmem).1).mp hsame).symm

theorem expressed_iff : Expressed c m m' root ↔ Expressible c := by
  constructor
  · intro he v hv hl hr
    obtain ⟨e,hleaf,hlt,hframe,-⟩ := he.inside v hv hl hr
    unfold leafEntry at hleaf
    split_ifs at hleaf with hcan
    exact ⟨hcan,by omega⟩
  · intro he
    have hcan : ∀ w ∈ pages c, Canonical w := by
      intro w hw
      obtain ⟨hal,hl,hr⟩ := pages_bounds c hc w hw
      exact (he w hal hl hr).1
    refine ⟨?_,?_⟩
    · intro v _ hv hout
      by_cases hcv : Canonical v
      · apply unselected_kept c hc root m m' h v hv
        intro w hw hsame
        obtain rfl := canonical_injective w v (hcan w hw) hcv hsame
        exact hout (pages_bounds c hc w hw).2
      · rw [translation, translation, leafEntry, leafEntry, if_neg hcv, if_neg hcv]
    · intro v hv hl hr
      have hmem := (mem_pages c hc v hv).mpr ⟨hl,hr⟩
      refine ⟨entryOf c v,?_,entryOf_decodes c hc v hv hl (he v hv hl hr).2⟩
      rw [leafEntry, if_pos (hcan v hmem)]
      apply last_entry c hc root m m' h v hmem
      intro u hu hlt hsame
      have heq := canonical_injective u v (hcan u hu) (hcan v hmem) hsame
      omega

end Remapped

/-- An accepted call leaves alone every address that shares its low 48 bits
with no page of the range, and the last page with given low bits gets the
entry as computed. This is the mapping asked for exactly if the range and the
frames are within the format. -/
theorem accepted_call (boxNew : TableMemory → Option ℕ) (hbox : FreshBoxes boxNew)
    (base : TableMemory) (root : ℕ) (m : TableMemory) (hr : Reachable boxNew base root m)
    (c : Call) (m' : TableMemory) (hrun : callMapping boxNew root c m = .ok (.ok (),m')) :
    (Expressed c m m' root ↔ Expressible c) ∧
    (∀ v, 4096 ∣ v →
      (∀ w, 4096 ∣ w → c.virtStart ≤ w → w < c.virtEnd → w%2^48 ≠ v%2^48) →
      translation m' root v = translation m root v) ∧
    (∀ w, 4096 ∣ w → c.virtStart ≤ w → w < c.virtEnd →
      (∀ u, 4096 ∣ u → w < u → u < c.virtEnd → u%2^48 ≠ w%2^48) →
      entryAt m' root w = some ((c.phys+(w-c.virtStart)) ||| c.attr.value)) := by
  have ht := reachable_tree boxNew hbox base root m hr
  have hc : Aligned c := by
    by_contra hn
    obtain ⟨message,he⟩ := call_rejects boxNew root m c hn
    rw [he] at hrun
    cases hrun
  obtain ⟨-,-,-,h⟩ := yields_returned _ _ _ _ _ _
    (call_effect boxNew base root m c hbox ht hc) hrun
  refine ⟨expressed_iff c hc root m m' h,?_,?_⟩
  · intro v hv hne
    apply unselected_kept c hc root m m' h v hv
    intro w hw
    obtain ⟨hal,hl,hr⟩ := pages_bounds c hc w hw
    exact hne w hal hl hr
  · intro w hw hl hr hlast
    rw [← Nat.add_sub_assoc hl]
    apply last_entry c hc root m m' h w ((mem_pages c hc w hw).mpr ⟨hl,hr⟩)
    intro u hu hlt
    obtain ⟨hal,-,hur⟩ := pages_bounds c hc u hu
    exact hlast u hal hlt hur

theorem straddling_accepted :
    ∃ m', callMapping firstFree 0x100000 straddling freshTables = .ok (.ok (),m') := by
  obtain ⟨m',hrun,-⟩ := aligned_returns firstFree firstFree_fresh _ _ _ freshTables_reachable
    straddling (by decide) (by decide) straddling_runs
  exact ⟨m',hrun⟩

theorem accepted_call_straddling :
    ∃ m', callMapping firstFree 0x100000 straddling freshTables = .ok (.ok (),m') ∧
    (Expressed straddling freshTables m' 0x100000 ↔ Expressible straddling) ∧
    (∀ v, 4096 ∣ v → (∀ w, 4096 ∣ w → 0x1ff000 ≤ w → w < 0x202000 → w%2^48 ≠ v%2^48) →
      translation m' 0x100000 v = translation freshTables 0x100000 v) ∧
    (∀ w, 4096 ∣ w → 0x1ff000 ≤ w → w < 0x202000 →
      (∀ u, 4096 ∣ u → w < u → u < 0x202000 → u%2^48 ≠ w%2^48) →
      entryAt m' 0x100000 w =
        some ((0x5000+(w-0x1ff000)) ||| PageAttr.readWriteKernel.value)) := by
  obtain ⟨m',hrun⟩ := straddling_accepted
  exact ⟨m',hrun,accepted_call firstFree firstFree_fresh _ 0x100000 freshTables
    freshTables_reachable straddling m' hrun⟩

/-- The page at `2^48`, whose indices are those of page zero. -/
def beyond : Call := ⟨2^48,2^48+0x1000,0x7000,.readWriteKernel⟩

theorem beyond_remaps_zero :
    ∃ m', callMapping firstFree 0x100000 beyond freshTables = .ok (.ok (),m') ∧
      beyond.virtStart < beyond.virtEnd ∧ ¬ (beyond.virtStart ≤ 0 ∧ 0 < beyond.virtEnd) ∧
      translation freshTables 0x100000 0 = none ∧ translation m' 0x100000 0 = some 0x7003 ∧
      ¬ Expressed beyond freshTables m' 0x100000 := by
  have hrun : callMapping firstFree 0x100000 beyond freshTables ≠ .error .outOfMemory :=
    ok_not_fault _ _ (by decide +kernel)
  obtain ⟨m',hrun,-,h⟩ := aligned_returns firstFree firstFree_fresh _ _ _ freshTables_reachable
    beyond (by decide) (by decide) hrun
  have hzero : translation m' 0x100000 0 = some 0x7003 := by
    have hpath : path 0 = path (2^48) := by decide
    have hindex : calcIndex 12 0 = calcIndex 12 (2^48) := by decide
    have hlast := last_entry beyond (by decide) _ _ _ h (2^48) (by decide) (by decide)
    rw [translation, leafEntry, if_pos (by decide), entryAt, hpath, hindex]
    rw [entryAt] at hlast
    rw [hlast]
    decide
  refine ⟨m',hrun,by decide,by decide,rfl,hzero,?_⟩
  intro he
  have hkept := he.outside 0 (by decide) (by decide) (by decide)
  rw [hzero] at hkept
  cases hkept

end Wasabi.Paging.Format
