import Mathlib.Tactic

/-!
# Polled output

A driver writes to a data port and asks a status port before each write. The
trace of its accesses is polled if each write directly follows an answer that
allows it. Such traces compose.
-/

set_option autoImplicit false

namespace Wasabi.PolledOutput

inductive Access (π δ : Type) where
  | read (port : π) (data : δ)
  | write (port : π) (data : δ)
  deriving DecidableEq, Repr

variable {π δ : Type}

def Access.written : Access π δ → Option δ
  | .read _ _ => none
  | .write _ data => some data

/-- The trace sends `sent` through `port` under the control of `status`. -/
structure Polled (ready : δ → Prop) (status port : π) (sent : List δ)
    (trace : List (Access π δ)) : Prop where
  reads : ∀ p d, .read p d ∈ trace → p = status
  writes : ∀ p d, .write p d ∈ trace → p = port
  data : trace.filterMap Access.written = sent
  guarded : ∀ pre p d post, trace = pre++.write p d::post →
    ∃ pre' answer, pre = pre'++[.read status answer] ∧ ready answer

/-- What was written to one port. -/
def received [DecidableEq π] (port : π) (trace : List (Access π δ)) : List δ :=
  trace.filterMap (fun a => match a with
    | .write p data => if p = port then some data else none
    | .read _ _ => none)

variable (ready : δ → Prop) (status port : π)

theorem polled_nil : Polled ready status port [] [] := by
  refine ⟨?_,?_,rfl,?_⟩
  · simp
  · simp
  · intro pre p d post h
    simp at h

theorem polled_append (sent sent' : List δ) (trace trace' : List (Access π δ))
    (h : Polled ready status port sent trace) (h' : Polled ready status port sent' trace') :
    Polled ready status port (sent++sent') (trace++trace') := by
  refine ⟨?_,?_,?_,?_⟩
  · intro p d hmem
    rcases List.mem_append.mp hmem with hmem | hmem
    · exact h.reads p d hmem
    · exact h'.reads p d hmem
  · intro p d hmem
    rcases List.mem_append.mp hmem with hmem | hmem
    · exact h.writes p d hmem
    · exact h'.writes p d hmem
  · rw [List.filterMap_append, h.data, h'.data]
  · intro pre p d post heq
    rcases List.append_eq_append_iff.mp heq with ⟨mid,hpre,hrest⟩ | ⟨mid,htrace,hpost⟩
    · obtain ⟨pre',answer,hmid,hready⟩ := h'.guarded mid p d post hrest
      exact ⟨trace++pre',answer,by rw [hpre, hmid, List.append_assoc],hready⟩
    · cases mid with
      | nil =>
        obtain ⟨pre',answer,hmid,-⟩ := h'.guarded [] p d post hpost.symm
        simp at hmid
      | cons a mid =>
        obtain ⟨rfl,-⟩ := List.cons.inj hpost
        exact h.guarded pre p d mid htrace

/-- Any number of refusals, one answer that allows the write, and the write. -/
theorem polled_write (refusals : List δ) (answer d : δ) (h : ready answer) :
    Polled ready status port [d]
      (refusals.map (Access.read status)++[.read status answer,.write port d]) := by
  refine ⟨?_,?_,?_,?_⟩
  · intro p e hmem
    simp at hmem
    tauto
  · intro p e hmem
    simp at hmem
    exact hmem.1
  · rw [List.filterMap_append, List.filterMap_map]
    have hnone : refusals.filterMap (Access.written ∘ Access.read status) = [] := by
      rw [List.filterMap_eq_nil_iff]
      exact fun _ _ => rfl
    rw [hnone]
    rfl
  · intro pre p e post heq
    have hsplit : refusals.map (Access.read status)++[.read status answer,.write port d] =
        (refusals.map (Access.read status)++[.read status answer])++[.write port d] := by simp
    have hreads : Access.write p e ∉
        refusals.map (Access.read status)++[.read status answer] := by simp
    rw [hsplit] at heq
    rcases List.append_eq_append_iff.mp heq with ⟨mid,hpre,hrest⟩ | ⟨mid,hfront,hpost⟩
    · have hmid : mid = [] := by
        cases mid with
        | nil => rfl
        | cons a mid => simp at hrest
      exact ⟨_,answer,by rw [hpre, hmid, List.append_nil],h⟩
    · cases mid with
      | nil => exact ⟨_,answer,by rw [← List.append_nil pre, ← hfront],h⟩
      | cons a mid =>
        obtain ⟨rfl,-⟩ := List.cons.inj hpost
        exact absurd (by rw [hfront]; simp) hreads

theorem polled_received [DecidableEq π] (sent : List δ) (trace : List (Access π δ))
    (h : Polled ready status port sent trace) : received port trace = sent := by
  rw [← h.data, received]
  apply List.filterMap_congr
  intro a ha
  cases a with
  | read p d => rfl
  | write p d => exact if_pos (h.writes p d ha)

/-- A trace that sends something determines its port. -/
theorem polled_port (ready' : δ → Prop) (status' port' : π) (sent sent' : List δ)
    (trace : List (Access π δ)) (h : Polled ready status port sent trace)
    (h' : Polled ready' status' port' sent' trace) (hne : sent ≠ []) : port = port' := by
  obtain ⟨d,hd⟩ := List.exists_mem_of_ne_nil sent hne
  rw [← h.data, List.mem_filterMap] at hd
  obtain ⟨a,ha,hwritten⟩ := hd
  cases a with
  | read p e => cases hwritten
  | write p e => exact (h.writes p e ha).symm.trans (h'.writes p e ha)

end Wasabi.PolledOutput
