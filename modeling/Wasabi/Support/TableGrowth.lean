import Wasabi.Support.TableTree

/-!
# How a tree of tables grows along a path

A walk that links in the tables it misses extends the tree by the prefixes of
one path. Tables that were there keep their place, the others are fresh, and
the entries of the last level change only where a blank table appears.
-/

set_option autoImplicit false

namespace Wasabi.TableGrowth
open Wasabi.TableTree (Tree descend write grow follow)

variable {A ι E L : Type*} [DecidableEq A] [DecidableEq ι] (link : E → Option A) (depth : ℕ)

omit [DecidableEq A] [DecidableEq ι] in
/-- The entry itself at the end of a path and an index. -/
def entry (heap : A → Option (ι → E)) (root : A) (p : List ι) (i : ι) : Option E :=
  TableTree.read link some heap root p i

omit [DecidableEq A] [DecidableEq ι] in
theorem read_entry (leaf : E → Option L) (heap : A → Option (ι → E)) (root : A) (p : List ι)
    (i : ι) : TableTree.read link leaf heap root p i = (entry link heap root p i).bind leaf := by
  rw [entry, TableTree.read, TableTree.read]
  cases (descend link heap root p).bind heap with
  | none => rfl
  | some t => rfl

omit [DecidableEq A] [DecidableEq ι] in
theorem entry_none (heap : A → Option (ι → E)) (root : A) (p : List ι) (i : ι)
    (h : descend link heap root p = none) : entry link heap root p i = none := by
  rw [entry, TableTree.read, h]
  rfl

omit [DecidableEq A] [DecidableEq ι] in
theorem entry_some (heap : A → Option (ι → E)) (root : A) (p : List ι) (i : ι) (a : A)
    (t : ι → E) (hp : descend link heap root p = some a) (ha : heap a = some t) :
    entry link heap root p i = some (t i) := by
  rw [entry, TableTree.read, hp, Option.bind_some, ha]
  rfl

/-- The table `b` is at the end of `p`, linked in or there before. -/
structure Linked (heap heap' : A → Option (ι → E)) (root : A) (p : List ι) (b : A) (blank : E) :
    Prop where
  paths : ∀ q, q.length ≤ depth → descend link heap' root q =
    if q = p then some b else descend link heap root q
  entries : ∀ q j, q.length = depth → entry link heap' root q j =
    if q = p ∧ descend link heap root p = none then some blank else entry link heap root q j
  kept : ∀ a, heap a ≠ none → heap' a ≠ none
  same : ∀ c, descend link heap root p = some c → c = b
  fresh : descend link heap root p = none → heap b = none

omit [DecidableEq A] in
theorem linked_refl (heap : A → Option (ι → E)) (root : A) (p : List ι) (b : A) (blank : E)
    (h : descend link heap root p = some b) : Linked link depth heap heap root p b blank := by
  have hne : descend link heap root p ≠ none := by
    rw [h]
    exact Option.some_ne_none b
  refine ⟨?_,?_,fun _ ha => ha,?_,fun hn => absurd hn hne⟩
  · intro q _
    split_ifs with hq
    · rw [hq, h]
    · rfl
  · intro q j _
    rw [if_neg (fun hc => hne hc.2)]
  · intro c hc
    rw [h] at hc
    exact (Option.some.inj hc).symm

section Link
variable (heap : A → Option (ι → E)) (root : A) (ht : Tree link depth heap root) (p : List ι)
  (a b : A) (t : ι → E) (hp : descend link heap root p = some a) (hd : p.length < depth)
  (hat : heap a = some t) (i : ι) (e blank : E) (hold : link (t i) = none) (hnew : heap b = none)
  (he : link e = some b) (hblank : link blank = none)
include ht hp hd hat hold hnew he hblank

theorem linked_new :
    Linked link depth heap (write (grow heap b blank) a i e) root (p++[i]) b blank := by
  have hpaths := TableTree.descend_link link depth heap root ht p a b t hp hd hat i e blank hold
    hnew he hblank
  have hnone : descend link heap root (p++[i]) = none := by
    rw [TableTree.descend_some link heap root p i a t hp hat, hold]
  refine ⟨hpaths,?_,?_,?_,fun _ => hnew⟩
  · intro q j hq
    by_cases hqp : q = p++[i]
    · rw [if_pos ⟨hqp,hnone⟩, hqp]
      apply entry_some link _ root _ j b _ ?_ (TableTree.grown_new heap a b t i e blank hat hnew)
      exact TableTree.link_path link depth heap root ht p a b t hp hd hat i e blank hold hnew he
        hblank
    · rw [if_neg (fun h => hqp h.1)]
      cases hc : descend link heap root q with
      | none =>
        rw [entry_none link _ root q j hc, entry_none]
        rw [hpaths q hq.le, if_neg hqp, hc]
      | some c =>
        obtain ⟨u,hu⟩ := ht.live q c hq.le hc
        have hca : c ≠ a := by
          rintro rfl
          have hqe := ht.injective q p c hq.le hd.le hc hp
          rw [hqe] at hq
          omega
        have hcb : c ≠ b := by
          rintro rfl
          rw [hnew] at hu
          cases hu
        have hu' := (TableTree.grown_other heap a b i e blank c hca hcb).trans hu
        rw [entry_some link heap root q j c u hc hu, entry_some link _ root q j c u _ hu']
        rw [hpaths q hq.le, if_neg hqp, hc]
  · intro c hc
    by_cases hca : c = a
    · rw [hca, TableTree.grown_old heap a b t i e blank hat hnew]
      exact Option.some_ne_none _
    by_cases hcb : c = b
    · exact absurd (hcb ▸ hnew) hc
    · rwa [TableTree.grown_other heap a b i e blank c hca hcb]
  · intro c hc
    rw [hnone] at hc
    cases hc

end Link

/-- The paths of `heap'` are those of `heap` and the prefixes of `p`. -/
structure Grown (heap heap' : A → Option (ι → E)) (root : A) (p : List ι) : Prop where
  paths : ∀ q, q.length ≤ depth →
    (descend link heap' root q ≠ none ↔ descend link heap root q ≠ none ∨ q <+: p)
  same : ∀ q a, q.length ≤ depth → descend link heap root q = some a →
    descend link heap' root q = some a
  fresh : ∀ q a, q.length ≤ depth → descend link heap root q = none →
    descend link heap' root q = some a → heap a = none
  kept : ∀ a, heap a ≠ none → heap' a ≠ none

omit [DecidableEq A] [DecidableEq ι] in
theorem grown_nil (heap : A → Option (ι → E)) (root : A) : Grown link depth heap heap root [] := by
  refine ⟨?_,fun _ _ _ h => h,?_,fun _ h => h⟩
  · intro q _
    constructor
    · exact Or.inl
    · rintro (h | h)
      · exact h
      · rw [List.prefix_nil.mp h]
        exact Option.some_ne_none root
  · intro q a _ hn hs
    rw [hn] at hs
    cases hs

omit [DecidableEq A] in
theorem grown_snoc (heap heap1 heap2 : A → Option (ι → E)) (root : A) (p : List ι) (i : ι) (b : A)
    (blank : E) (h1 : Grown link depth heap heap1 root p)
    (h2 : Linked link depth heap1 heap2 root (p++[i]) b blank) :
    Grown link depth heap heap2 root (p++[i]) := by
  refine ⟨?_,?_,?_,fun a ha => h2.kept a (h1.kept a ha)⟩
  · intro q hq
    rw [h2.paths q hq, List.prefix_concat_iff]
    by_cases hqp : q = p++[i]
    · simp [hqp]
    · rw [if_neg hqp, h1.paths q hq]
      simp [hqp]
  · intro q a hq ha
    have ha1 := h1.same q a hq ha
    rw [h2.paths q hq]
    split_ifs with hqp
    · rw [hqp] at ha1
      rw [h2.same a ha1]
    · exact ha1
  · intro q a hq hn ha
    rw [h2.paths q hq] at ha
    split_ifs at ha with hqp
    · obtain rfl := Option.some.inj ha
      by_contra hne
      cases h1q : descend link heap1 root (p++[i]) with
      | none => exact h1.kept b hne (h2.fresh h1q)
      | some c =>
        obtain rfl := h2.same c h1q
        exact hne (h1.fresh q c hq hn (hqp ▸ h1q))
    · exact h1.fresh q a hq hn ha

omit [DecidableEq A] in
/-- Only at the full depth does a step add blank entries. -/
theorem entries_snoc (heap heap1 heap2 : A → Option (ι → E)) (root : A) (p : List ι) (i : ι) (b : A)
    (blank : E) (h1 : Grown link depth heap heap1 root p) (hp : p.length < depth)
    (h2 : Linked link depth heap1 heap2 root (p++[i]) b blank)
    (hentries : ∀ q j, q.length = depth → entry link heap1 root q j = entry link heap root q j)
    (q : List ι) (hq : q.length = depth) (j : ι) : entry link heap2 root q j =
      if q = p++[i] ∧ descend link heap root q = none then some blank
      else entry link heap root q j := by
  rw [h2.entries q j hq, hentries q j hq]
  by_cases hqp : q = p++[i]
  · have hnot : ¬ q <+: p := by
      intro hpre
      have hle := hpre.length_le
      omega
    have hiff : descend link heap1 root q = none ↔ descend link heap root q = none := by
      rw [← not_iff_not]
      simpa [hnot] using h1.paths q hq.le
    rw [← hqp]
    simp only [hiff, true_and]
  · rw [if_neg (fun h => hqp h.1), if_neg (fun h => hqp h.1)]

section Write
variable (heap : A → Option (ι → E)) (root : A) (ht : Tree link depth heap root) (p : List ι)
  (a : A) (hp : descend link heap root p = some a) (hd : p.length = depth) (i : ι) (e : E)
include ht hp hd

theorem entry_write (q : List ι) (hq : q.length = depth) (j : ι) :
    entry link (write heap a i e) root q j =
      if q = p ∧ j = i then some e else entry link heap root q j :=
  TableTree.read_write link some depth heap root ht p a hp hd i e q hq j

theorem grown_write (old : A → Option (ι → E)) (r : List ι) (h : Grown link depth old heap root r) :
    Grown link depth old (write heap a i e) root r := by
  have hsame := TableTree.descend_write link depth heap root ht p a hp hd i e
  refine ⟨?_,?_,?_,?_⟩
  · intro q hq
    rw [hsame q hq]
    exact h.paths q hq
  · intro q c hq hc
    rw [hsame q hq]
    exact h.same q c hq hc
  · intro q c hq hn hc
    rw [hsame q hq] at hc
    exact h.fresh q c hq hn hc
  · intro c hc
    have hkept := h.kept c hc
    by_cases hca : c = a
    · subst hca
      obtain ⟨t,hat⟩ := ht.live p c hd.le hp
      rw [write, Function.update_self, hat]
      exact Option.some_ne_none _
    · rwa [write, Function.update_of_ne hca]

end Write

/-- Writing the value that an entry has changes nothing. -/
theorem write_same (heap : A → Option (ι → E)) (a : A) (t : ι → E) (hat : heap a = some t) (i : ι) :
    write heap a i (t i) = heap := by
  rw [write, hat, Option.map_some, Function.update_eq_self, ← hat, Function.update_eq_self]

section Count
variable (heap : A → Option (ι → E)) (root : A) (ht : Tree link depth heap root)
include ht

omit [DecidableEq A] [DecidableEq ι] in
/-- In a tree one entry links to a table below the root. -/
theorem linked_once (q : List ι) (a : A) (hne : q ≠ []) (hq : q.length ≤ depth)
    (ha : descend link heap root q = some a) :
    ∃! r : A × ι, (∃ p, p.length < depth ∧ descend link heap root p = some r.1) ∧
      follow link heap r.1 r.2 = some a := by
  obtain ⟨p,i,rfl⟩ := (List.eq_nil_or_concat q).resolve_left hne
  rw [List.concat_eq_append] at hq ha
  rw [List.length_append, List.length_singleton] at hq
  have hd := ha
  rw [TableTree.descend_snoc] at hd
  obtain ⟨b,hb,hf⟩ := Option.bind_eq_some_iff.mp hd
  refine ⟨(b,i),⟨⟨p,by omega,hb⟩,hf⟩,?_⟩
  rintro ⟨b',i'⟩ ⟨⟨p',hp',hb'⟩,hf'⟩
  have ha' : descend link heap root (p'++[i']) = some a := by
    rw [TableTree.descend_snoc, hb', Option.bind_some, hf']
  have heq := ht.injective (p'++[i']) (p++[i]) a
    (by rw [List.length_append, List.length_singleton]; omega)
    (by rw [List.length_append, List.length_singleton]; omega) ha' ha
  obtain ⟨rfl,hi⟩ := List.append_inj' heq rfl
  cases hi
  rw [hb] at hb'
  cases hb'
  rfl

omit [DecidableEq A] [DecidableEq ι] in
/-- A tree has as many tables as paths. -/
theorem tables_ncard (paths : Finset (List ι)) (hlen : ∀ q ∈ paths, q.length ≤ depth)
    (hlive : ∀ q ∈ paths, descend link heap root q ≠ none) :
    {a | ∃ q ∈ paths, descend link heap root q = some a}.ncard = paths.card := by
  have hsome : ∀ q ∈ paths, descend link heap root q =
      some ((descend link heap root q).getD root) := by
    intro q hq
    obtain ⟨a,ha⟩ := Option.ne_none_iff_exists'.mp (hlive q hq)
    rw [ha]
    rfl
  have himage : {a | ∃ q ∈ paths, descend link heap root q = some a} =
      (fun q => (descend link heap root q).getD root) '' paths := by
    ext a
    constructor
    · rintro ⟨q,hq,ha⟩
      exact ⟨q,hq,by simp only [ha, Option.getD_some]⟩
    · rintro ⟨q,hq,rfl⟩
      exact ⟨q,hq,hsome q hq⟩
  rw [himage, Set.InjOn.ncard_image, Set.ncard_coe_finset]
  intro q hq r hr hqr
  have hqa := hsome q hq
  simp only at hqr
  rw [hqr] at hqa
  exact ht.injective q r _ (hlen q hq) (hlen r hr) hqa (hsome r hr)

end Count

end Wasabi.TableGrowth
