import Mathlib.Tactic

/-!
# Trees of linked tables in a heap

A table maps indices to entries, and an entry may link to another table. The
tables reached from a root by index paths up to a depth form a tree when all
of them are live and no two paths reach the same one. Writing an entry at the
bottom changes one reading; linking a fresh blank table changes none.
-/

set_option autoImplicit false

namespace Wasabi.TableTree

variable {A ι E L : Type*} [DecidableEq A] [DecidableEq ι]
  (link : E → Option A) (leaf : E → Option L)

omit [DecidableEq A] [DecidableEq ι] in
def follow (heap : A → Option (ι → E)) (a : A) (i : ι) : Option A :=
  (heap a).bind (fun t => link (t i))

/-- The table at the end of an index path. -/
def descend (heap : A → Option (ι → E)) (root : A) : List ι → Option A :=
  List.foldlM (follow link heap) root

/-- What the entry at the end of a path and an index shows. -/
def read (heap : A → Option (ι → E)) (root : A) (p : List ι) (i : ι) : Option L :=
  ((descend link heap root p).bind heap).bind (fun t => leaf (t i))

def write (heap : A → Option (ι → E)) (a : A) (i : ι) (e : E) : A → Option (ι → E) :=
  Function.update heap a ((heap a).map (fun t => Function.update t i e))

def grow (heap : A → Option (ι → E)) (b : A) (blank : E) : A → Option (ι → E) :=
  Function.update heap b (some (fun _ => blank))

structure Tree (depth : ℕ) (heap : A → Option (ι → E)) (root : A) : Prop where
  live : ∀ p a, p.length ≤ depth → descend link heap root p = some a → ∃ t, heap a = some t
  injective : ∀ p q a, p.length ≤ depth → q.length ≤ depth →
    descend link heap root p = some a → descend link heap root q = some a → p = q

/-- Every entry of a table above the last level satisfies `P`. -/
def Inner (P : E → Prop) (depth : ℕ) (heap : A → Option (ι → E)) (root : A) : Prop :=
  ∀ p a t i, p.length < depth → descend link heap root p = some a → heap a = some t → P (t i)

/-- Every table was there at the beginning or is at the end of a path. -/
def Reached (depth : ℕ) (base heap : A → Option (ι → E)) (root : A) : Prop :=
  ∀ a t, heap a = some t →
    (∃ t', base a = some t') ∨ ∃ p, p.length ≤ depth ∧ descend link heap root p = some a

omit [DecidableEq A] [DecidableEq ι] in
@[simp] theorem descend_nil (heap : A → Option (ι → E)) (root : A) :
    descend link heap root [] = some root := rfl

omit [DecidableEq A] [DecidableEq ι] in
theorem descend_snoc (heap : A → Option (ι → E)) (root : A) (p : List ι) (i : ι) :
    descend link heap root (p++[i]) =
      (descend link heap root p).bind (fun a => follow link heap a i) := by
  simp [descend, List.foldlM_append]

omit [DecidableEq A] [DecidableEq ι] in
theorem descend_some (heap : A → Option (ι → E)) (root : A) (p : List ι) (i : ι) (a : A)
    (t : ι → E) (hp : descend link heap root p = some a) (ha : heap a = some t) :
    descend link heap root (p++[i]) = link (t i) := by
  rw [descend_snoc, hp, Option.bind_some, follow, ha, Option.bind_some]

omit [DecidableEq A] [DecidableEq ι] in
/-- Two ways to follow entries agree where they agree on the inner entries. -/
theorem descend_congr (link' : E → Option A) (depth : ℕ) (heap : A → Option (ι → E)) (root : A)
    (h : Inner link (fun e => link' e = link e) depth heap root) (p : List ι)
    (hp : p.length ≤ depth) : descend link' heap root p = descend link heap root p := by
  induction p using List.reverseRecOn with
  | nil => rfl
  | append_singleton p i ih =>
    rw [List.length_append, List.length_singleton] at hp
    rw [descend_snoc, descend_snoc, ih (by omega)]
    cases hc : descend link heap root p with
    | none => rfl
    | some c =>
      rw [Option.bind_some, Option.bind_some, follow, follow]
      cases hct : heap c with
      | none => rfl
      | some t =>
        rw [Option.bind_some, Option.bind_some]
        exact h p c t i (by omega) hc hct

section Extend
variable (depth : ℕ) (heap heap' : A → Option (ι → E)) (root : A)
  (hsub : ∀ a t, heap a = some t → heap' a = some t) (ht : Tree link depth heap root)
include hsub ht

omit [DecidableEq A] [DecidableEq ι] in
/-- A tree is descended in the same way in any heap that has its tables. -/
theorem descend_extend (p : List ι) (hp : p.length ≤ depth) :
    descend link heap' root p = descend link heap root p := by
  induction p using List.reverseRecOn with
  | nil => rfl
  | append_singleton p i ih =>
    rw [List.length_append, List.length_singleton] at hp
    rw [descend_snoc, descend_snoc, ih (by omega)]
    cases hc : descend link heap root p with
    | none => rfl
    | some c =>
      obtain ⟨t,hct⟩ := ht.live p c (by omega) hc
      rw [Option.bind_some, Option.bind_some, follow, follow, hct, hsub c t hct]

omit [DecidableEq A] [DecidableEq ι] in
theorem read_extend (p : List ι) (hp : p.length ≤ depth) (i : ι) :
    read link leaf heap' root p i = read link leaf heap root p i := by
  rw [read, read, descend_extend link depth heap heap' root hsub ht p hp]
  cases hc : descend link heap root p with
  | none => rfl
  | some c =>
    obtain ⟨t,hct⟩ := ht.live p c hp hc
    rw [Option.bind_some, Option.bind_some, hct, hsub c t hct]

end Extend

omit [DecidableEq A] [DecidableEq ι] in
/-- A root whose table is blank. -/
theorem tree_blank (depth : ℕ) (heap : A → Option (ι → E)) (root : A) (blank : E)
    (hr : heap root = some (fun _ => blank)) (hb : link blank = none) :
    Tree link depth heap root ∧ (∀ P : E → Prop, P blank → Inner link P depth heap root) ∧
      ∀ p i, 0 < p.length → read link leaf heap root p i = none := by
  have hnone : ∀ p : List ι, p ≠ [] → descend link heap root p = none := by
    intro p hp
    cases p with
    | nil => exact absurd rfl hp
    | cons i p => simp [descend, List.foldlM_cons, follow, hr, hb]
  have hnil : ∀ p a, descend link heap root p = some a → p = [] := by
    intro p a hp
    by_contra hne
    rw [hnone p hne] at hp
    cases hp
  refine ⟨⟨?_,?_⟩,?_,?_⟩
  · intro p a _ hp
    obtain rfl := hnil p a hp
    cases hp
    exact ⟨_,hr⟩
  · intro p q a _ _ hp hq
    rw [hnil p a hp, hnil q a hq]
  · intro P hP p a t i _ hp hat
    obtain rfl := hnil p a hp
    cases hp
    rw [hr] at hat
    cases hat
    exact hP
  · intro p i hp
    rw [read, hnone p (List.ne_nil_of_length_pos hp)]
    rfl

omit [DecidableEq ι] in
theorem reached_blank (depth : ℕ) (base : A → Option (ι → E)) (root : A) (blank : E) :
    Reached link depth base (grow base root blank) root := by
  intro a t ha
  by_cases he : a = root
  · exact Or.inr ⟨[],Nat.zero_le _,by rw [he]; rfl⟩
  · rw [grow, Function.update_of_ne he] at ha
    exact Or.inl ⟨t,ha⟩

omit [DecidableEq ι] in
/-- The new tables are no more than the paths. -/
theorem reached_card [Fintype ι] (depth : ℕ) (base heap : A → Option (ι → E)) (root : A)
    (h : Reached link depth base heap root) :
    ∃ new : Finset A, new.card ≤ ∑ k ∈ Finset.range (depth+1), Fintype.card ι^k ∧
      ∀ a t, heap a = some t → (∃ t', base a = some t') ∨ a ∈ new := by
  let ends : ℕ → Finset A := fun k =>
    Finset.univ.image (fun p : List.Vector ι k => (descend link heap root p.toList).getD root)
  refine ⟨(Finset.range (depth+1)).biUnion ends,?_,?_⟩
  · apply Finset.card_biUnion_le.trans
    apply Finset.sum_le_sum
    intro k _
    apply Finset.card_image_le.trans
    rw [Finset.card_univ, card_vector]
  · intro a t ha
    rcases h a t ha with hb | ⟨p,hp,hpa⟩
    · exact Or.inl hb
    · right
      rw [Finset.mem_biUnion]
      refine ⟨p.length,Finset.mem_range.mpr (by omega),?_⟩
      rw [Finset.mem_image]
      refine ⟨⟨p,rfl⟩,Finset.mem_univ _,?_⟩
      change (descend link heap root p).getD root = a
      rw [hpa]
      rfl

section Leaf
variable (depth : ℕ) (heap : A → Option (ι → E)) (root : A) (ht : Tree link depth heap root)
  (p : List ι) (a : A) (hp : descend link heap root p = some a) (hd : p.length = depth)
  (i : ι) (e : E)
include ht hp hd

theorem descend_write (q : List ι) (hq : q.length ≤ depth) :
    descend link (write heap a i e) root q = descend link heap root q := by
  induction q using List.reverseRecOn with
  | nil => rfl
  | append_singleton q j ih =>
    rw [List.length_append, List.length_singleton] at hq
    rw [descend_snoc, descend_snoc, ih (by omega)]
    cases hc : descend link heap root q with
    | none => rfl
    | some c =>
      have hne : c ≠ a := by
        rintro rfl
        have he := ht.injective p q c hd.le (by omega) hp hc
        rw [← he] at hq
        omega
      rw [Option.bind_some, Option.bind_some, follow, follow, write, Function.update_of_ne hne]

theorem tree_write : Tree link depth (write heap a i e) root := by
  refine ⟨?_,?_⟩
  · intro q c hq hc
    rw [descend_write link depth heap root ht p a hp hd i e q hq] at hc
    obtain ⟨t,hct⟩ := ht.live q c hq hc
    by_cases he : c = a
    · subst he
      exact ⟨_,by rw [write, Function.update_self, hct]; rfl⟩
    · exact ⟨t,by rw [write, Function.update_of_ne he, hct]⟩
  · intro q r c hq hr hqc hrc
    rw [descend_write link depth heap root ht p a hp hd i e _ hq] at hqc
    rw [descend_write link depth heap root ht p a hp hd i e _ hr] at hrc
    exact ht.injective q r c hq hr hqc hrc

theorem inner_write (P : E → Prop) (hin : Inner link P depth heap root) :
    Inner link P depth (write heap a i e) root := by
  intro q c t j hq hc hct
  rw [descend_write link depth heap root ht p a hp hd i e q hq.le] at hc
  have hne : c ≠ a := by
    rintro rfl
    have he := ht.injective p q c hd.le hq.le hp hc
    rw [← he] at hq
    omega
  rw [write, Function.update_of_ne hne] at hct
  exact hin q c t j hq hc hct

theorem reached_write (base : A → Option (ι → E)) (hr : Reached link depth base heap root) :
    Reached link depth base (write heap a i e) root := by
  intro c u hc
  have hold : ∃ t, heap c = some t := by
    by_cases he : c = a
    · exact he ▸ ht.live p a hd.le hp
    · exact ⟨u,by rwa [write, Function.update_of_ne he] at hc⟩
  obtain ⟨t,hct⟩ := hold
  rcases hr c t hct with hb | ⟨q,hq,hqc⟩
  · exact Or.inl hb
  · exact Or.inr ⟨q,hq,by rw [descend_write link depth heap root ht p a hp hd i e q hq, hqc]⟩

/-- Exactly one reading changes. -/
theorem read_write (q : List ι) (hq : q.length = depth) (j : ι) :
    read link leaf (write heap a i e) root q j =
      if q = p ∧ j = i then leaf e else read link leaf heap root q j := by
  rw [read, read, descend_write link depth heap root ht p a hp hd i e q hq.le]
  by_cases he : q = p
  · subst he
    obtain ⟨t,hat⟩ := ht.live q a hq.le hp
    rw [hp, Option.bind_some, Option.bind_some, write, Function.update_self, hat, Option.map_some,
      Option.bind_some, Option.bind_some]
    by_cases hj : j = i
    · rw [if_pos ⟨rfl,hj⟩, hj, Function.update_self]
    · rw [if_neg (fun h => hj h.2), Function.update_of_ne hj]
  · rw [if_neg (fun h => he h.1)]
    cases hc : descend link heap root q with
    | none => rfl
    | some c =>
      have hne : c ≠ a := by
        rintro rfl
        exact he (ht.injective q p c hq.le hd.le hc hp)
      rw [Option.bind_some, Option.bind_some, write, Function.update_of_ne hne]

end Leaf

section Link
variable (depth : ℕ) (heap : A → Option (ι → E)) (root : A) (ht : Tree link depth heap root)
  (p : List ι) (a b : A) (t : ι → E) (hp : descend link heap root p = some a)
  (hd : p.length < depth) (hat : heap a = some t) (i : ι) (e blank : E)
  (hold : link (t i) = none) (hnew : heap b = none) (he : link e = some b)
  (hblank : link blank = none)

theorem grown_old (hat : heap a = some t) (hnew : heap b = none) :
    write (grow heap b blank) a i e a = some (Function.update t i e) := by
  have hne : a ≠ b := by
    rintro rfl
    rw [hat] at hnew
    cases hnew
  rw [write, Function.update_self, grow, Function.update_of_ne hne, hat, Option.map_some]

theorem grown_new (hat : heap a = some t) (hnew : heap b = none) :
    write (grow heap b blank) a i e b = some (fun _ => blank) := by
  have hne : b ≠ a := by
    rintro rfl
    rw [hat] at hnew
    cases hnew
  rw [write, Function.update_of_ne hne, grow, Function.update_self]

theorem grown_other (c : A) (hca : c ≠ a) (hcb : c ≠ b) :
    write (grow heap b blank) a i e c = heap c := by
  rw [write, Function.update_of_ne hca, grow, Function.update_of_ne hcb]

include ht hp hd hat hold hnew he hblank

/-- The new path reaches the new table; all other paths end as before. -/
theorem descend_link (q : List ι) (hq : q.length ≤ depth) :
    descend link (write (grow heap b blank) a i e) root q =
      if q = p++[i] then some b else descend link heap root q := by
  induction q using List.reverseRecOn with
  | nil => simp
  | append_singleton q j ih =>
    rw [List.length_append, List.length_singleton] at hq
    rw [descend_snoc, ih (by omega)]
    by_cases hqp : q = p++[i]
    · have hne : q++[j] ≠ p++[i] := by
        rw [hqp]
        simp
      rw [if_pos hqp, if_neg hne, Option.bind_some, follow,
        grown_new heap a b t i e blank hat hnew, Option.bind_some, hblank, descend_snoc, hqp,
        descend_some link heap root p i a t hp hat, hold]
      rfl
    · rw [if_neg hqp, descend_snoc]
      cases hc : descend link heap root q with
      | none =>
        have hne : q++[j] ≠ p++[i] := by
          intro heq
          obtain ⟨rfl,-⟩ := List.append_inj' heq rfl
          rw [hp] at hc
          cases hc
        rw [if_neg hne]
        rfl
      | some c =>
        rw [Option.bind_some, Option.bind_some, follow, follow]
        by_cases hca : c = a
        · subst hca
          obtain rfl := ht.injective q p c (by omega) hd.le hc hp
          rw [grown_old heap c b t i e blank hat hnew, hat, Option.bind_some, Option.bind_some]
          by_cases hj : j = i
          · rw [hj, Function.update_self, he, if_pos rfl]
          · rw [Function.update_of_ne hj, if_neg (by simpa using hj)]
        · have hcb : c ≠ b := by
            rintro rfl
            obtain ⟨u,hu⟩ := ht.live q c (by omega) hc
            rw [hnew] at hu
            cases hu
          have hne : q++[j] ≠ p++[i] := by
            intro heq
            obtain ⟨rfl,-⟩ := List.append_inj' heq rfl
            rw [hp] at hc
            exact hca (Option.some.inj hc).symm
          rw [grown_other heap a b i e blank c hca hcb, if_neg hne]

theorem link_path : descend link (write (grow heap b blank) a i e) root (p++[i]) = some b := by
  rw [descend_link link depth heap root ht p a b t hp hd hat i e blank hold hnew he hblank _
    (by rw [List.length_append, List.length_singleton]; omega), if_pos rfl]

theorem tree_link : Tree link depth (write (grow heap b blank) a i e) root := by
  have hdl := descend_link link depth heap root ht p a b t hp hd hat i e blank hold hnew he hblank
  have hfresh : ∀ q, q.length ≤ depth → descend link heap root q ≠ some b := by
    intro q hq hc
    obtain ⟨u,hu⟩ := ht.live q b hq hc
    rw [hnew] at hu
    cases hu
  refine ⟨?_,?_⟩
  · intro q c hq hc
    by_cases hca : c = a
    · exact ⟨_,by rw [hca]; exact grown_old heap a b t i e blank hat hnew⟩
    by_cases hcb : c = b
    · exact ⟨_,by rw [hcb]; exact grown_new heap a b t i e blank hat hnew⟩
    rw [hdl q hq] at hc
    split_ifs at hc with hqp
    · exact absurd (Option.some.inj hc).symm hcb
    · obtain ⟨u,hu⟩ := ht.live q c hq hc
      exact ⟨u,by rw [grown_other heap a b i e blank c hca hcb, hu]⟩
  · intro q r c hq hr hqc hrc
    rw [hdl q hq] at hqc
    rw [hdl r hr] at hrc
    split_ifs at hqc hrc with h1 h2 h2
    · rw [h1, h2]
    · rw [← hqc] at hrc
      exact absurd hrc (hfresh r hr)
    · rw [← hrc] at hqc
      exact absurd hqc (hfresh q hq)
    · exact ht.injective q r c hq hr hqc hrc

theorem inner_link (P : E → Prop) (hin : Inner link P depth heap root) (hPe : P e)
    (hPb : P blank) : Inner link P depth (write (grow heap b blank) a i e) root := by
  intro q c u j hq hc hcu
  by_cases hca : c = a
  · rw [hca, grown_old heap a b t i e blank hat hnew] at hcu
    cases hcu
    by_cases hj : j = i
    · rw [hj, Function.update_self]
      exact hPe
    · rw [Function.update_of_ne hj]
      exact hin p a t j hd hp hat
  by_cases hcb : c = b
  · rw [hcb, grown_new heap a b t i e blank hat hnew] at hcu
    cases hcu
    exact hPb
  rw [descend_link link depth heap root ht p a b t hp hd hat i e blank hold hnew he hblank q
    hq.le] at hc
  split_ifs at hc with hqp
  · exact absurd (Option.some.inj hc).symm hcb
  · rw [grown_other heap a b i e blank c hca hcb] at hcu
    exact hin q c u j hq hc hcu

theorem reached_link (base : A → Option (ι → E)) (hr : Reached link depth base heap root) :
    Reached link depth base (write (grow heap b blank) a i e) root := by
  have hdl := descend_link link depth heap root ht p a b t hp hd hat i e blank hold hnew he hblank
  have hkeep : ∀ c u, heap c = some u → (∃ t', base c = some t') ∨
      ∃ q, q.length ≤ depth ∧
        descend link (write (grow heap b blank) a i e) root q = some c := by
    intro c u hc
    rcases hr c u hc with hb | ⟨q,hq,hqc⟩
    · exact Or.inl hb
    · refine Or.inr ⟨q,hq,?_⟩
      have hqp : q ≠ p++[i] := by
        rintro rfl
        rw [descend_some link heap root p i a t hp hat, hold] at hqc
        cases hqc
      rw [hdl q hq, if_neg hqp, hqc]
  intro c u hc
  by_cases hca : c = a
  · exact hkeep c t (hca ▸ hat)
  by_cases hcb : c = b
  · refine Or.inr ⟨p++[i],by rw [List.length_append, List.length_singleton]; omega,?_⟩
    rw [hcb]
    exact link_path link depth heap root ht p a b t hp hd hat i e blank hold hnew he hblank
  · rw [grown_other heap a b i e blank c hca hcb] at hc
    exact hkeep c u hc

end Link

end Wasabi.TableTree
