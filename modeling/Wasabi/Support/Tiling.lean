import Mathlib.Tactic

/-!
# Lists of blocks that tile intervals

A block has a lower and an upper end in a linear order. A list tiles an
interval when its blocks follow one another from one end to the other, none
of them empty. Cutting one block into a tiling of its own range keeps the
tiling, and cuts compose into a refinement order on lists of blocks.
-/

set_option autoImplicit false

namespace Wasabi.Tiling

variable {ι β : Type*} [LinearOrder ι] (lo hi : β → ι)

def Tiles : ι → List β → ι → Prop
  | a, [], z => a = z
  | a, b::bs, z => lo b = a ∧ a < hi b ∧ Tiles (hi b) bs z

theorem tiles_append (a z : ι) (bs cs : List β) :
    Tiles lo hi a (bs++cs) z ↔ ∃ m, Tiles lo hi a bs m ∧ Tiles lo hi m cs z := by
  induction bs generalizing a with
  | nil => simp [Tiles]
  | cons b bs ih => simp [Tiles, ih, and_assoc]

theorem tiles_le (a z : ι) (bs : List β) (h : Tiles lo hi a bs z) : a ≤ z := by
  induction bs generalizing a with
  | nil => exact le_of_eq h
  | cons b bs ih => exact h.2.1.le.trans (ih _ h.2.2)

theorem tiles_mem (a z : ι) (bs : List β) (h : Tiles lo hi a bs z) (b : β) (hb : b ∈ bs) :
    a ≤ lo b ∧ lo b < hi b ∧ hi b ≤ z := by
  induction bs generalizing a with
  | nil => cases hb
  | cons c bs ih =>
    obtain ⟨hc,hlt,ht⟩ := h
    rcases List.mem_cons.mp hb with rfl | hb
    · exact ⟨hc.ge,hc.trans_lt hlt,tiles_le lo hi _ _ bs ht⟩
    · obtain ⟨h1,h2,h3⟩ := ih _ ht hb
      exact ⟨hlt.le.trans h1,h2,h3⟩

theorem tiles_pairwise (a z : ι) (bs : List β) (h : Tiles lo hi a bs z) :
    bs.Pairwise (fun b c => hi b ≤ lo c) := by
  induction bs generalizing a with
  | nil => exact List.Pairwise.nil
  | cons b bs ih =>
    exact List.pairwise_cons.mpr
      ⟨fun c hc => (tiles_mem lo hi _ _ bs h.2.2 c hc).1,ih _ h.2.2⟩

/-- One block may be replaced by any tiling of its range. -/
theorem tiles_subst (a z : ι) (pre cut post : List β) (b : β)
    (h : Tiles lo hi a (pre++b::post) z) (hc : Tiles lo hi (lo b) cut (hi b)) :
    Tiles lo hi a (pre++(cut++post)) z := by
  obtain ⟨m,hp,hb,-,ht⟩ := (tiles_append lo hi a z pre (b::post)).mp h
  rw [hb] at hc
  exact (tiles_append lo hi _ _ _ _).mpr ⟨m,hp,(tiles_append lo hi _ _ _ _).mpr ⟨_,hc,ht⟩⟩

theorem tiles_map (f : β → β) (hlo : ∀ b, lo (f b) = lo b) (hhi : ∀ b, hi (f b) = hi b)
    (a z : ι) (bs : List β) (h : Tiles lo hi a bs z) : Tiles lo hi a (bs.map f) z := by
  induction bs generalizing a with
  | nil => exact h
  | cons b bs ih =>
    refine ⟨(hlo b).trans h.1,?_,?_⟩
    · rw [hhi]; exact h.2.1
    · rw [hhi]; exact ih _ h.2.2

/-- Consecutive groups of the list tile the given intervals, one group each. -/
def TilesAll : List (ι × ι) → List β → Prop
  | [], bs => bs = []
  | r::rs, bs => ∃ own rest, bs = own++rest ∧ Tiles lo hi r.1 own r.2 ∧ TilesAll rs rest

theorem tilesAll_subst (rs : List (ι × ι)) (pre cut post : List β) (b : β)
    (h : TilesAll lo hi rs (pre++b::post)) (hc : Tiles lo hi (lo b) cut (hi b)) :
    TilesAll lo hi rs (pre++(cut++post)) := by
  induction rs generalizing pre with
  | nil => exact absurd h (by simp [TilesAll])
  | cons r rs ih =>
    obtain ⟨own,rest,he,ht,hr⟩ := h
    rcases List.append_eq_append_iff.mp he with ⟨mid,h1,h2⟩ | ⟨mid,h1,h2⟩
    · cases mid with
      | nil =>
        simp only [List.append_nil, List.nil_append] at h1 h2
        refine ⟨own,cut++post,by simp [h1],ht,?_⟩
        exact ih [] (by rw [List.nil_append, h2]; exact hr)
      | cons c mid =>
        obtain ⟨rfl,rfl⟩ := List.cons.inj h2
        subst h1
        exact ⟨pre++(cut++mid),rest,by simp,tiles_subst lo hi _ _ pre cut mid b ht hc,hr⟩
    · subst h1
      exact ⟨own,mid++(cut++post),by simp,ht,ih mid (by rw [← h2]; exact hr)⟩

theorem tilesAll_map (f : β → β) (hlo : ∀ b, lo (f b) = lo b) (hhi : ∀ b, hi (f b) = hi b)
    (rs : List (ι × ι)) (bs : List β) (h : TilesAll lo hi rs bs) :
    TilesAll lo hi rs (bs.map f) := by
  induction rs generalizing bs with
  | nil => simpa [TilesAll] using h
  | cons r rs ih =>
    obtain ⟨own,rest,rfl,ht,hr⟩ := h
    exact ⟨own.map f,rest.map f,by simp,tiles_map lo hi f hlo hhi _ _ _ ht,ih _ hr⟩

theorem tilesAll_mem (rs : List (ι × ι)) (bs : List β) (h : TilesAll lo hi rs bs) (b : β)
    (hb : b ∈ bs) : ∃ r ∈ rs, r.1 ≤ lo b ∧ lo b < hi b ∧ hi b ≤ r.2 := by
  induction rs generalizing bs with
  | nil => rw [show bs = [] from h] at hb; cases hb
  | cons r rs ih =>
    obtain ⟨own,rest,rfl,ht,hr⟩ := h
    rcases List.mem_append.mp hb with hb | hb
    · exact ⟨r,by simp,tiles_mem lo hi _ _ own ht b hb⟩
    · obtain ⟨s,hs,h⟩ := ih rest hr hb
      exact ⟨s,by simp [hs],h⟩

/-- Two intervals without a common point, in either order. -/
def Apart (r s : ι × ι) : Prop := r.2 ≤ s.1 ∨ s.2 ≤ r.1

theorem apart_symm (r s : ι × ι) (h : Apart r s) : Apart s r := h.symm

theorem apart_of_ne (bs : List β) (h : bs.Pairwise (fun b c => Apart (lo b,hi b) (lo c,hi c)))
    (b c : β) (hb : b ∈ bs) (hc : c ∈ bs) (hne : b ≠ c) : Apart (lo b,hi b) (lo c,hi c) := by
  have hsymm : Std.Symm (fun b c => Apart (lo b,hi b) (lo c,hi c)) := ⟨fun _ _ h => h.symm⟩
  exact h.forall hb hc hne

theorem tilesAll_pairwise (rs : List (ι × ι)) (bs : List β) (h : TilesAll lo hi rs bs)
    (hd : rs.Pairwise Apart) :
    bs.Pairwise (fun b c => Apart (lo b,hi b) (lo c,hi c)) := by
  induction rs generalizing bs with
  | nil => rw [show bs = [] from h]; exact List.Pairwise.nil
  | cons r rs ih =>
    obtain ⟨own,rest,rfl,ht,hr⟩ := h
    obtain ⟨hr1,hr2⟩ := List.pairwise_cons.mp hd
    refine List.pairwise_append.mpr ⟨?_,ih rest hr hr2,?_⟩
    · exact (tiles_pairwise lo hi _ _ own ht).imp Or.inl
    · intro b hb c hc
      obtain ⟨h1,-,h3⟩ := tiles_mem lo hi _ _ own ht b hb
      obtain ⟨s,hs,h4,-,h6⟩ := tilesAll_mem lo hi rs rest hr c hc
      rcases hr1 s hs with h | h
      · exact Or.inl (h3.trans (h.trans h4))
      · exact Or.inr (h6.trans (h.trans h1))

/-- The blocks of one interval are consecutive, and no other block of the
list meets that interval. -/
theorem tilesAll_group (rs : List (ι × ι)) (bs : List β) (h : TilesAll lo hi rs bs)
    (hd : rs.Pairwise Apart) (r : ι × ι) (hr : r ∈ rs) :
    ∃ pre own post, bs = pre++(own++post) ∧ Tiles lo hi r.1 own r.2 ∧
      ∀ b, b ∈ pre ∨ b ∈ post → Apart (lo b,hi b) r := by
  induction rs generalizing bs with
  | nil => cases hr
  | cons s rs ih =>
    obtain ⟨own,rest,rfl,ht,hrest⟩ := h
    obtain ⟨hd1,hd2⟩ := List.pairwise_cons.mp hd
    rcases List.mem_cons.mp hr with rfl | hr
    · refine ⟨[],own,rest,rfl,ht,?_⟩
      rintro b (hb | hb)
      · cases hb
      · obtain ⟨t,ht1,h1,-,h3⟩ := tilesAll_mem lo hi rs rest hrest b hb
        rcases hd1 t ht1 with h | h
        · exact Or.inr (h.trans h1)
        · exact Or.inl (h3.trans h)
    · obtain ⟨pre,own',post,rfl,ht',hout⟩ := ih rest hrest hd2 hr
      refine ⟨own++pre,own',post,by simp,ht',?_⟩
      rintro b (hb | hb)
      · rcases List.mem_append.mp hb with hb | hb
        · obtain ⟨h1,-,h3⟩ := tiles_mem lo hi _ _ own ht b hb
          rcases hd1 r hr with h | h
          · exact Or.inl (h3.trans h)
          · exact Or.inr (h.trans h1)
        · exact hout b (Or.inl hb)
      · exact hout b (Or.inr hb)

/-- Every new block lies inside an old one, and every old block still starts
a new one that is no longer. -/
def Refines (new old : List β) : Prop :=
  (∀ c ∈ new, ∃ b ∈ old, lo b ≤ lo c ∧ hi c ≤ hi b) ∧
  ∀ b ∈ old, ∃ c ∈ new, lo c = lo b ∧ hi c ≤ hi b

theorem refines_refl (bs : List β) : Refines lo hi bs bs :=
  ⟨fun c hc => ⟨c,hc,le_rfl,le_rfl⟩,fun b hb => ⟨b,hb,rfl,le_rfl⟩⟩

theorem refines_trans (as bs cs : List β) (h : Refines lo hi as bs) (h' : Refines lo hi bs cs) :
    Refines lo hi as cs := by
  constructor
  · intro a ha
    obtain ⟨b,hb,h1,h2⟩ := h.1 a ha
    obtain ⟨c,hc,h3,h4⟩ := h'.1 b hb
    exact ⟨c,hc,h3.trans h1,h2.trans h4⟩
  · intro c hc
    obtain ⟨b,hb,h1,h2⟩ := h'.2 c hc
    obtain ⟨a,ha,h3,h4⟩ := h.2 b hb
    exact ⟨a,ha,h3.trans h1,h4.trans h2⟩

theorem refines_map (f : β → β) (hlo : ∀ b, lo (f b) = lo b) (hhi : ∀ b, hi (f b) = hi b)
    (bs : List β) : Refines lo hi (bs.map f) bs := by
  constructor
  · intro c hc
    obtain ⟨b,hb,rfl⟩ := List.mem_map.mp hc
    exact ⟨b,hb,(hlo b).ge,(hhi b).le⟩
  · intro b hb
    exact ⟨f b,List.mem_map_of_mem hb,hlo b,(hhi b).le⟩

theorem refines_subst (pre cut post : List β) (b : β) (hb : lo b < hi b)
    (hc : Tiles lo hi (lo b) cut (hi b)) :
    Refines lo hi (pre++(cut++post)) (pre++b::post) := by
  constructor
  · intro c hm
    simp only [List.mem_append] at hm
    rcases hm with hm | hm | hm
    · exact ⟨c,by simp [hm],le_rfl,le_rfl⟩
    · obtain ⟨h1,-,h3⟩ := tiles_mem lo hi _ _ cut hc c hm
      exact ⟨b,by simp,h1,h3⟩
    · exact ⟨c,by simp [hm],le_rfl,le_rfl⟩
  · intro d hm
    rcases List.mem_append.mp hm with hm | hm
    · exact ⟨d,by simp [hm],rfl,le_rfl⟩
    rcases List.mem_cons.mp hm with rfl | hm
    · cases cut with
      | nil => exact absurd (show lo d = hi d from hc) hb.ne
      | cons e es => exact ⟨e,by simp,hc.1,(tiles_mem lo hi _ _ _ hc e (by simp)).2.2⟩
    · exact ⟨d,by simp [hm],rfl,le_rfl⟩

/-- Disjoint intervals below a bound are no longer than the bound together. -/
theorem disjoint_lengths (rs : List (ℕ × ℕ)) (bound : ℕ) (h : ∀ r ∈ rs, r.2 ≤ bound)
    (hd : rs.Pairwise (fun r s => ∀ x ∈ Set.Ico r.1 r.2, x ∉ Set.Ico s.1 s.2)) :
    (rs.map (fun r => r.2-r.1)).sum ≤ bound := by
  have hcover : ∃ covered : Finset ℕ, covered.card = (rs.map (fun r => r.2-r.1)).sum ∧
      ∀ x ∈ covered, ∃ r ∈ rs, x ∈ Set.Ico r.1 r.2 := by
    clear h
    induction rs with
    | nil => exact ⟨∅,rfl,by simp⟩
    | cons r rs ih =>
      obtain ⟨hr,hrest⟩ := List.pairwise_cons.mp hd
      obtain ⟨covered,hcard,hmem⟩ := ih hrest
      have hdis : Disjoint (Finset.Ico r.1 r.2) covered := by
        rw [Finset.disjoint_left]
        intro x hx hc
        obtain ⟨s,hs,hxs⟩ := hmem x hc
        exact hr s hs x (by simpa using hx) hxs
      refine ⟨Finset.Ico r.1 r.2 ∪ covered,?_,?_⟩
      · rw [Finset.card_union_of_disjoint hdis, Nat.card_Ico, hcard, List.map_cons, List.sum_cons]
      · intro x hx
        rcases Finset.mem_union.mp hx with hx | hx
        · exact ⟨r,List.mem_cons_self,by simpa using hx⟩
        · obtain ⟨s,hs,hxs⟩ := hmem x hx
          exact ⟨s,List.mem_cons_of_mem r hs,hxs⟩
  obtain ⟨covered,hcard,hmem⟩ := hcover
  rw [← hcard, ← Finset.card_range bound]
  apply Finset.card_le_card
  intro x hx
  obtain ⟨r,hr,hxr⟩ := hmem x hx
  exact Finset.mem_range.mpr (hxr.2.trans_le (h r hr))

end Wasabi.Tiling
