import Wasabi.Allocator.HiddenHeader
import Wasabi.Allocator.Outside
import Wasabi.Support.RawBytes

/-!
# Boxes on the heap

The kernel keeps its tables and stacks in boxes. A box is an allocation that
is filled at once, and the allocation error handler stops the kernel if there
is no room. What a box holds stays there for as long as nobody addresses it.
-/

set_option autoImplicit false

namespace Wasabi.Allocator.Boxes
open Wasabi.Rust Wasabi.ObjectMemory Wasabi.RawBytes Wasabi.Tiling
open Wasabi.Allocator.FirstFit Wasabi.Allocator.Provide Wasabi.Allocator.BlockList
open Wasabi.Allocator.Runs Wasabi.Allocator.HiddenHeader Wasabi.Allocator.Outside

/-- `Box::into_raw(Box::new(value))` for a value of the given bytes. -/
def boxNew (fuel : ℕ) (layout : Layout) (bytes : List UInt8) (s : Client) : Eval (Client × ℕ) := do
  let (heap,p) ← allocWithOptions fuel s.heap layout
  if p = 0 then .error .outOfMemory
  else pure (⟨{heap with memory := pokes p bytes heap.memory},⟨p,layout⟩::s.live,
    ⟨p,layout⟩::s.granted⟩,p)

/-- The bytes belong to one live allocation. -/
def owned (s : Client) (a len : ℕ) : Bool :=
  s.live.any (fun c => c.ptr ≤ a && a+len ≤ c.ptr+c.layout.size)

theorem owned_live (s : Client) (c : Allocation) (hc : c ∈ s.live) (a len : ℕ) (h1 : c.ptr ≤ a)
    (h2 : a+len ≤ c.ptr+c.layout.size) : owned s a len = true := by
  apply List.any_eq_true.mpr
  exact ⟨c,hc,by simp [h1, h2]⟩

section Heap
variable (rs : List (ℕ × ℕ)) (hrs : rs.Pairwise Apart) (s : Client) (bs : List Block)
  (hi : Inv rs s bs)
include hrs hi

/-- Whatever is written into a live range leaves the list of blocks alone. -/
theorem write_inv (a : Allocation) (ha : a ∈ s.live) (m' : HeaderMemory)
    (hm : ∀ x, x ∉ userBytes a → m' x = s.heap.memory x) :
    Inv rs {s with heap := {s.heap with memory := m'}} bs := by
  refine ⟨?_,hi.tiles,hi.granular,hi.owned,hi.recorded,hi.sound,hi.distinct,hi.count⟩
  apply LinkedList.segment_congr _ _ _ _ _ _ _ _ _ hi.chain
  intro c hc
  apply load_congr headerSize (by decide)
  intro x h1 h2
  apply hm
  intro hx
  have hh := inv_header rs hrs s bs hi a ha c hc x hx
  omega

/-- Two live allocations are the same or do not overlap. -/
theorem live_apart (a c : Allocation) (ha : a ∈ s.live) (hc : c ∈ s.live) (hne : a ≠ c) :
    Disjoint (userBytes a) (userBytes c) := by
  apply inv_disjoint rs hrs s bs hi a c ha hc
  intro hp
  exact hne (List.inj_on_of_nodup_map hi.distinct ha hc hp)

omit hrs in
theorem boxNew_full (fuel : ℕ) (hf : bs.length ≤ fuel) (layout : Layout) (bytes : List UInt8)
    (hff : firstFit (requestSize layout.size) (requestAlign layout.align) bs = none) :
    boxNew fuel layout bytes s = .error .outOfMemory := by
  have hno : ¬ (0 < layout.size ∧ Room bs layout) := by
    rintro ⟨-,b,hb,ha⟩
    exact (firstFit_none _ _ bs).mp hff b hb ha
  rw [boxNew, alloc_full rs s bs hi fuel hf layout hno]
  rfl

/-- A box in the block that first fit picks: it holds the value, and the other
live allocations are as before. -/
theorem boxNew_room (fuel : ℕ) (hf : bs.length ≤ fuel) (layout : Layout) (bytes : List UInt8)
    (hpos : 0 < layout.size) (hlen : bytes.length ≤ layout.size) (p : ℕ) (bs' : List Block)
    (hff : firstFit (requestSize layout.size) (requestAlign layout.align) bs = some (p,bs')) :
    ∃ heap', boxNew fuel layout bytes s =
        .ok (⟨heap',⟨p,layout⟩::s.live,⟨p,layout⟩::s.granted⟩,p) ∧
      Inv rs ⟨heap',⟨p,layout⟩::s.live,⟨p,layout⟩::s.granted⟩ bs' ∧ bs'.length ≤ bs.length+2 ∧
      peeks heap'.memory p bytes.length = some bytes ∧
      (∀ a ∈ s.live, ∀ x ∈ userBytes a, heap'.memory x = s.heap.memory x) ∧
      ∀ x, Unregistered rs x → heap'.memory x = s.heap.memory x := by
  obtain ⟨pre,b,post,he,hpre,hadm,rfl,rfl⟩ := (firstFit_some _ _ bs p bs').mp hff
  obtain ⟨heap1,hrun,hne,hadv⟩ := alloc_first rs hrs s bs hi fuel hf layout hpos pre post b he
    hpre hadm
  let box := grantFrom b layout
  have hwrite : ∀ x, x ∉ userBytes box → pokes box.ptr bytes heap1.memory x = heap1.memory x := by
    intro x hx
    apply pokes_outside
    by_contra hcon
    exact hx ⟨by omega,by change x < box.ptr+layout.size; omega⟩
  have hinv := write_inv rs hrs _ _ hadv.inv box List.mem_cons_self _ hwrite
  refine ⟨{heap1 with memory := pokes box.ptr bytes heap1.memory},?_,hinv,hadv.length,
    peeks_pokes _ _ _,?_,?_⟩
  · rw [boxNew, hrun]
    exact if_neg hne
  · intro a ha x hx
    have hptr : a ≠ box := by
      rintro rfl
      exact (List.nodup_cons.mp hadv.inv.distinct).1 (List.mem_map_of_mem ha)
    have hdis := live_apart rs hrs _ _ hadv.inv a box (List.mem_cons_of_mem _ ha)
      List.mem_cons_self hptr
    exact (hwrite x (Set.disjoint_left.mp hdis hx)).trans
      (hadv.kept (by rintro _ _ _ h; cases h) a ha x hx)
  · intro x hx
    have hinside := (hadv.inv.sound box List.mem_cons_self).inside
    exact (hwrite x (unregistered_inside rs x hx box hinside)).trans
      (alloc_outside rs hrs s bs hi fuel hf layout heap1 _ hrun x hx)

end Heap

/-- The operation frees this allocation or writes into it. -/
def Addresses (s : Client) (a : Allocation) : Op → Prop
  | .alloc _ => False
  | .dealloc index => s.live[index]? = some a
  | .poke index _ _ => s.live[index]? = some a

/-- No operation of the run addresses one of these allocations. -/
def Spares (fuel : ℕ) (kept : List Allocation) : Client → List Op → Prop
  | _, [] => True
  | s, op::ops => (∀ a ∈ kept, ¬ Addresses s a op) ∧
      ∀ s', step fuel s op = .ok s' → Spares fuel kept s' ops

theorem addresses_frees (s : Client) (a : Allocation) (op : Op) (h : Frees s a op) :
    Addresses s a op := by
  cases op with
  | alloc layout => exact h
  | dealloc index => exact h
  | poke index offset byte => exact h.elim

section Runs
variable (rs : List (ℕ × ℕ)) (hrs : rs.Pairwise Apart)
include hrs

/-- One operation keeps what a live allocation holds if it addresses others. -/
theorem step_keeps_bytes (s s' : Client) (bs bs' : List Block) (hi : Inv rs s bs) (op : Op)
    (fuel : ℕ) (h : step fuel s op = .ok s') (hadv : Advance rs s s' op bs bs') (a : Allocation)
    (ha : a ∈ s.live) (hn : ¬ Addresses s a op) (x : ℕ) (hx : x ∈ userBytes a) :
    s'.heap.memory x = s.heap.memory x := by
  cases op with
  | alloc layout => exact hadv.kept (by rintro _ _ _ h; cases h) a ha x hx
  | dealloc index => exact hadv.kept (by rintro _ _ _ h; cases h) a ha x hx
  | poke index offset byte =>
    simp only [step] at h
    cases hidx : s.live[index]? with
    | none =>
      rw [hidx] at h
      cases h
      rfl
    | some c =>
      rw [hidx] at h
      simp only at h
      split_ifs at h with hlt
      · cases h
        have hne : a ≠ c := fun he => hn (he ▸ hidx)
        have hdis := live_apart rs hrs s bs hi a c ha (List.mem_of_getElem? hidx) hne
        apply poke_outside
        rintro rfl
        exact Set.disjoint_left.mp hdis hx ⟨by omega,by omega⟩
      · cases h
        rfl

/-- A run that spares live allocations leaves them live and as they are. -/
theorem run_keeps_bytes (ops : List Op) (s : Client) (bs : List Block) (hi : Inv rs s bs)
    (fuel : ℕ) (hf : bs.length+2*ops.length ≤ fuel) (kept : List Allocation)
    (hk : ∀ a ∈ kept, a ∈ s.live) (hsp : Spares fuel kept s ops) :
    ∃ s' bs', runFrom fuel s ops = .ok s' ∧ Inv rs s' bs' ∧
      bs'.length ≤ bs.length+2*ops.length ∧ (∀ a ∈ kept, a ∈ s'.live) ∧
      ∀ a ∈ kept, ∀ x ∈ userBytes a, s'.heap.memory x = s.heap.memory x := by
  induction ops generalizing s bs with
  | nil => exact ⟨s,bs,rfl,hi,by simp,hk,fun _ _ _ _ => rfl⟩
  | cons op ops ih =>
    rw [List.length_cons] at hf
    obtain ⟨s1,bs1,h1,hadv⟩ := step_advance rs hrs s bs hi op fuel (by omega)
    have hlen := hadv.length
    have hk1 : ∀ a ∈ kept, a ∈ s1.live := fun a ha =>
      step_keeps_live fuel s s1 op h1 a (hk a ha)
        (fun hfree => hsp.1 a ha (addresses_frees s a op hfree))
    obtain ⟨s2,bs2,h2,hi2,hl2,hk2,hsame⟩ := ih s1 bs1 hadv.inv (by omega) hk1 (hsp.2 s1 h1)
    refine ⟨s2,bs2,?_,hi2,by rw [List.length_cons]; omega,hk2,?_⟩
    · rw [runFrom, List.foldlM_cons, h1]
      exact h2
    · intro a ha x hx
      rw [hsame a ha x hx]
      exact step_keeps_bytes rs hrs s s1 bs bs1 hi op fuel h1 hadv a (hk a ha) (hsp.1 a ha) x hx

end Runs

/-- First fit for one request after the other. -/
def fits : List Layout → List Block → Option (List ℕ × List Block)
  | [], bs => some ([],bs)
  | layout::rest, bs => do
    let (p,bs) ← firstFit (requestSize layout.size) (requestAlign layout.align) bs
    let (ps,bs) ← fits rest bs
    pure (p::ps,bs)

theorem fits_append (front rest : List Layout) (bs : List Block) :
    fits (front++rest) bs = (fits front bs).bind (fun r =>
      (fits rest r.2).map (fun q => (r.1++q.1,q.2))) := by
  induction front generalizing bs with
  | nil => cases h : fits rest bs <;> simp [fits, h]
  | cons layout front ih =>
    rw [List.cons_append, fits, fits]
    cases firstFit (requestSize layout.size) (requestAlign layout.align) bs with
    | none => rfl
    | some r =>
      obtain ⟨p,bs1⟩ := r
      simp only [Option.bind_eq_bind, Option.bind_some, ih bs1]
      cases fits front bs1 with
      | none => rfl
      | some r => cases h : fits rest r.2 <;> simp [h]

/-- A program that requests boxes of these layouts and nothing else: it is
stopped if one of them does not fit, and returns with `post` otherwise. -/
def Requests {α : Type} (layouts : List Layout) (bs : List Block) (x : Eval α)
    (post : List ℕ → List Block → α → Prop) : Prop :=
  (fits layouts bs = none → x = .error .outOfMemory) ∧
    ∀ ps bs', fits layouts bs = some (ps,bs') → ∃ a, x = .ok a ∧ post ps bs' a

section Requests
variable {α β : Type} (layouts : List Layout) (bs : List Block) (x : Eval α)
  (post : List ℕ → List Block → α → Prop)

theorem requests_ok (a : α) (hx : x = .ok a) (hp : post [] bs a) : Requests [] bs x post := by
  constructor
  · intro h
    cases h
  · intro ps bs' h
    cases h
    exact ⟨a,hx,hp⟩

theorem requests_bind (rest : List Layout) (f : α → Eval β)
    (post' : List ℕ → List Block → β → Prop) (hx : Requests layouts bs x post)
    (hf : ∀ ps bs1 a, post ps bs1 a →
      Requests rest bs1 (f a) (fun qs bs2 b => post' (ps++qs) bs2 b)) :
    Requests (layouts++rest) bs (x >>= f) post' := by
  rw [Requests, fits_append]
  cases hfit : fits layouts bs with
  | none =>
    refine ⟨fun _ => ?_,fun _ _ h => by cases h⟩
    rw [hx.1 hfit]
    rfl
  | some r =>
    obtain ⟨ps,bs1⟩ := r
    obtain ⟨a,rfl,hp⟩ := hx.2 ps bs1 hfit
    obtain ⟨hnone,hsome⟩ := hf ps bs1 a hp
    rw [Option.bind_some, ok_bind]
    constructor
    · intro h
      exact hnone (Option.map_eq_none_iff.mp h)
    · intro qs bs' h
      obtain ⟨⟨qs',bs2⟩,hrest,h⟩ := Option.map_eq_some_iff.mp h
      cases h
      exact hsome qs' bs2 hrest

/-- What comes after the last request. -/
theorem requests_map (f : α → Eval β) (post' : List ℕ → List Block → β → Prop)
    (hx : Requests layouts bs x post)
    (hf : ∀ ps bs1 a, post ps bs1 a → ∃ b, f a = .ok b ∧ post' ps bs1 b) :
    Requests layouts bs (x >>= f) post' := by
  rw [← List.append_nil layouts]
  apply requests_bind _ _ _ _ _ _ _ hx
  intro ps bs1 a hp
  obtain ⟨b,hb,hp'⟩ := hf ps bs1 a hp
  exact requests_ok _ _ _ b hb (by rwa [List.append_nil])

end Requests

section Stored
variable (rs : List (ℕ × ℕ)) (hrs : rs.Pairwise Apart) (s : Client) (bs : List Block)

/-- Boxes in front of the allocations of `s`, and what they hold. -/
structure Stored (boxes : List (Allocation × List UInt8)) (s' : Client) (bs' : List Block) :
    Prop where
  inv : Inv rs s' bs'
  live : s'.live = boxes.map Prod.fst++s.live
  holds : ∀ b ∈ boxes, b.2.length ≤ b.1.layout.size ∧
    peeks s'.heap.memory b.1.ptr b.2.length = some b.2
  kept : ∀ a ∈ s.live, ∀ x ∈ userBytes a, s'.heap.memory x = s.heap.memory x
  outside : ∀ x, Unregistered rs x → s'.heap.memory x = s.heap.memory x
  blocks : bs'.length ≤ bs.length+2*boxes.length

theorem stored_start (hi : Inv rs s bs) : Stored rs s bs [] s bs :=
  ⟨hi,rfl,fun _ h => (List.not_mem_nil h).elim,fun _ _ _ _ => rfl,fun _ _ => rfl,
    Nat.le_add_right _ _⟩

variable (boxes : List (Allocation × List UInt8)) (s' : Client) (bs' : List Block)
  (h : Stored rs s bs boxes s' bs')
include h

theorem stored_live (b : Allocation × List UInt8) (hb : b ∈ boxes) : b.1 ∈ s'.live := by
  rw [h.live]
  exact List.mem_append_left _ (List.mem_map_of_mem hb)

theorem stored_inside (b : Allocation × List UInt8) (hb : b ∈ boxes) :
    ∃ r ∈ rs, r.1 ≤ b.1.ptr ∧ b.1.ptr+b.1.layout.size ≤ r.2 :=
  (h.inv.sound b.1 (h.inv.recorded b.1 (stored_live rs s bs boxes s' bs' h b hb))).inside

theorem stored_old (a : Allocation) (ha : a ∈ s.live) : a ∈ s'.live := by
  rw [h.live]
  exact List.mem_append_right _ ha

include hrs

theorem stored_box (fuel : ℕ) (hf : bs.length+2*boxes.length ≤ fuel) (layout : Layout)
    (bytes : List UInt8) (hpos : 0 < layout.size) (hlen : bytes.length ≤ layout.size) :
    Requests [layout] bs' (boxNew fuel layout bytes s') (fun ps bs2 r => ps = [r.2] ∧
      Stored rs s bs ((⟨r.2,layout⟩,bytes)::boxes) r.1 bs2) := by
  have hb := h.blocks
  cases hff : firstFit (requestSize layout.size) (requestAlign layout.align) bs' with
  | none =>
    refine ⟨fun _ => boxNew_full rs s' bs' h.inv fuel (by omega) layout bytes hff,?_⟩
    intro ps bs2 hfit
    rw [fits, hff] at hfit
    cases hfit
  | some r =>
    obtain ⟨p,bs2⟩ := r
    have hfit : fits [layout] bs' = some ([p],bs2) := by
      rw [fits, hff]
      rfl
    obtain ⟨heap2,hrun,hi2,hl2,hbytes,hkept,houtside⟩ := boxNew_room rs hrs s' bs' h.inv fuel
      (by omega) layout bytes hpos hlen p bs2 hff
    constructor
    · intro hnone
      rw [hfit] at hnone
      cases hnone
    · intro ps bs3 hsome
      rw [hfit] at hsome
      cases hsome
      refine ⟨_,hrun,rfl,hi2,?_,?_,?_,?_,?_⟩
      · rw [List.map_cons, List.cons_append, ← h.live]
      · intro b hb
        rcases List.mem_cons.mp hb with rfl | hb
        · exact ⟨hlen,hbytes⟩
        · obtain ⟨hle,hold⟩ := h.holds b hb
          refine ⟨hle,hold ▸ peeks_congr _ _ _ _ ?_⟩
          intro x h1 h2
          exact hkept b.1 (stored_live rs s bs boxes s' bs' h b hb) x ⟨h1,by omega⟩
      · intro a ha x hx
        rw [← h.kept a ha x hx]
        exact hkept a (stored_old rs s bs boxes s' bs' h a ha) x hx
      · intro x hx
        exact (houtside x hx).trans (h.outside x hx)
      · rw [List.length_cons]
        omega

/-- Writing into one box leaves the others and the older allocations alone. -/
theorem stored_write (pre post : List (Allocation × List UInt8)) (box : Allocation)
    (old bytes : List UInt8) (he : boxes = pre++(box,old)::post) (hlen : bytes.length = old.length)
    (m' : HeaderMemory) (hm : ∀ x, x ∉ userBytes box → m' x = s'.heap.memory x)
    (hbytes : peeks m' box.ptr bytes.length = some bytes) :
    Stored rs s bs (pre++(box,bytes)::post) {s' with heap := {s'.heap with memory := m'}} bs' := by
  have hbox : (box,old) ∈ boxes := by
    rw [he]
    simp
  have hlive := stored_live rs s bs boxes s' bs' h _ hbox
  have hd := h.inv.distinct
  rw [h.live, he] at hd
  simp only [List.map_append, List.map_cons, List.append_assoc, List.cons_append,
    List.nodup_append, List.nodup_cons, List.mem_append, List.mem_cons, not_or] at hd
  obtain ⟨-,⟨⟨hpost,hs⟩,-⟩,hpre⟩ := hd
  have hother : ∀ a ∈ s'.live, a ≠ box → ∀ x ∈ userBytes a, m' x = s'.heap.memory x := by
    intro a ha hne x hx
    exact hm x (Set.disjoint_left.mp (live_apart rs hrs s' bs' h.inv a box ha hlive hne) hx)
  refine ⟨write_inv rs hrs s' bs' h.inv box hlive m' hm,?_,?_,?_,?_,?_⟩
  · rw [h.live, he]
    simp
  · intro b hb
    rcases List.mem_append.mp hb with hb | hb
    · have hmem : b ∈ boxes := by rw [he]; exact List.mem_append_left _ hb
      have hne : b.1 ≠ box := by
        intro heq
        exact hpre b.1.ptr (List.mem_map_of_mem (List.mem_map_of_mem hb)) _ (Or.inl rfl)
          (by rw [heq])
      obtain ⟨hle,hold⟩ := h.holds b hmem
      refine ⟨hle,hold ▸ peeks_congr _ _ _ _ ?_⟩
      intro x h1 h2
      exact hother b.1 (stored_live rs s bs boxes s' bs' h b hmem) hne x ⟨h1,by omega⟩
    · rcases List.mem_cons.mp hb with rfl | hpst
      · exact ⟨by rw [hlen]; exact (h.holds _ hbox).1,hbytes⟩
      · have hmem : b ∈ boxes := by
          rw [he]
          exact List.mem_append_right _ (List.mem_cons_of_mem _ hpst)
        have hne : b.1 ≠ box := by
          intro heq
          exact hpost (heq ▸ List.mem_map_of_mem (List.mem_map_of_mem hpst))
        obtain ⟨hle,hold⟩ := h.holds b hmem
        refine ⟨hle,hold ▸ peeks_congr _ _ _ _ ?_⟩
        intro x h1 h2
        exact hother b.1 (stored_live rs s bs boxes s' bs' h b hmem) hne x ⟨h1,by omega⟩
  · intro a ha x hx
    have hne : a ≠ box := by
      rintro rfl
      exact hs (List.mem_map_of_mem ha)
    rw [← h.kept a ha x hx]
    exact hother a (stored_old rs s bs boxes s' bs' h a ha) hne x hx
  · intro x hx
    have hinside := stored_inside rs s bs boxes s' bs' h _ hbox
    exact (hm x (unregistered_inside rs x hx box hinside)).trans (h.outside x hx)
  · have hb := h.blocks
    rw [he] at hb
    simpa using hb

end Stored

end Wasabi.Allocator.Boxes
