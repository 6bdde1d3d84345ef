import Mathlib.Tactic

/-!
# Results up to permitted faults

Computations that read and write a state, may stop with a fault and may
return an error value that keeps the state. A computation yields a
postcondition when it returns a value that satisfies it, unless a permitted
fault stops it. The rules follow the shape of the program.
-/

set_option autoImplicit false

namespace Wasabi.Outcome

variable {ε σ F α β : Type}

abbrev Stateful (ε σ F α : Type) := ExceptT ε (StateT σ (Except F)) α

def Yields (permitted : F → Prop) (x : Stateful ε σ F α) (s : σ) (post : α → σ → Prop) : Prop :=
  (∃ e, permitted e ∧ x s = .error e) ∨ ∃ a s', x s = .ok (.ok a,s') ∧ post a s'

/-- A computation on the present state that leaves it alone. -/
def observe (f : σ → Except F α) : Stateful ε σ F α := fun s => do
  let a ← f s
  pure (.ok a,s)

theorem observe_ok (f : σ → Except F α) (s : σ) (a : α) (h : f s = .ok a) :
    (observe f : Stateful ε σ F α) s = .ok (.ok a,s) := by
  rw [observe, h]
  rfl

theorem run_bind (x : Stateful ε σ F α) (f : α → Stateful ε σ F β) (s s' : σ) (a : α)
    (hx : x s = .ok (.ok a,s')) : (x >>= f) s = f a s' := by
  change (do let r ← x s; _) = _
  rw [hx]
  rfl

theorem run_bind_error (x : Stateful ε σ F α) (f : α → Stateful ε σ F β) (s s' : σ) (e : ε)
    (hx : x s = .ok (.error e,s')) : (x >>= f) s = .ok (.error e,s') := by
  change (do let r ← x s; _) = _
  rw [hx]
  rfl

theorem run_bind_fault (x : Stateful ε σ F α) (f : α → Stateful ε σ F β) (s : σ) (e : F)
    (hx : x s = .error e) : (x >>= f) s = .error e := by
  change (do let r ← x s; _) = _
  rw [hx]
  rfl

/-- A sequence that returned went through both of its parts. -/
theorem bind_returned (x : Stateful ε σ F α) (f : α → Stateful ε σ F β) (s s' : σ) (b : β)
    (h : (x >>= f) s = .ok (.ok b,s')) :
    ∃ a s1, x s = .ok (.ok a,s1) ∧ f a s1 = .ok (.ok b,s') := by
  cases hx : x s with
  | error e =>
    rw [run_bind_fault x f s e hx] at h
    cases h
  | ok r =>
    obtain ⟨r,s1⟩ := r
    cases r with
    | error e =>
      change (do let r ← x s; _) = _ at h
      rw [hx] at h
      cases h
    | ok a =>
      rw [run_bind x f s s1 a hx] at h
      exact ⟨a,s1,rfl,h⟩

/-- A loop that returned went through the turn of each element. -/
theorem forM_returned (f : α → Stateful ε σ F Unit) (done rest : List α) (a : α) (s s' : σ)
    (h : (done++a::rest).forM f s = .ok (.ok (),s')) :
    ∃ s1 s2, done.forM f s = .ok (.ok (),s1) ∧ f a s1 = .ok (.ok (),s2) := by
  induction done generalizing s with
  | nil =>
    obtain ⟨_,s2,h2,-⟩ := bind_returned (f a) (fun _ => rest.forM f) s s' () h
    exact ⟨s,s2,rfl,h2⟩
  | cons b done ih =>
    obtain ⟨_,s1,h1,h2⟩ := bind_returned (f b) (fun _ => (done++a::rest).forM f) s s' () h
    obtain ⟨s2,s3,h3,h4⟩ := ih s1 h2
    exact ⟨s2,s3,(run_bind (f b) (fun _ => done.forM f) s s1 () h1).trans h3,h4⟩

/-- A loop whose turns change nothing. -/
theorem forM_idle (f : α → Stateful ε σ F Unit) (l : List α) (s : σ)
    (h : ∀ a ∈ l, f a s = .ok (.ok (),s)) : l.forM f s = .ok (.ok (),s) := by
  induction l with
  | nil => rfl
  | cons a l ih =>
    have hrest := ih (fun b hb => h b (by simp [hb]))
    exact (run_bind (f a) (fun _ => l.forM f) s s () (h a (by simp))).trans hrest

theorem yields_bind (permitted : F → Prop) (x : Stateful ε σ F α) (f : α → Stateful ε σ F β) (s : σ)
    (mid : α → σ → Prop) (post : β → σ → Prop) (hx : Yields permitted x s mid)
    (hf : ∀ a s', mid a s' → Yields permitted (f a) s' post) :
    Yields permitted (x >>= f) s post := by
  rcases hx with ⟨e,he,hx⟩ | ⟨a,s',hx,hm⟩
  · exact Or.inl ⟨e,he,run_bind_fault x f s e hx⟩
  · unfold Yields
    rw [run_bind x f s s' a hx]
    exact hf a s' hm

theorem yields_pure (permitted : F → Prop) (a : α) (s : σ) (post : α → σ → Prop) (h : post a s) :
    Yields permitted (pure a : Stateful ε σ F α) s post := Or.inr ⟨a,s,rfl,h⟩

theorem yields_mono (permitted : F → Prop) (x : Stateful ε σ F α) (s : σ)
    (post post' : α → σ → Prop) (hx : Yields permitted x s post)
    (h : ∀ a s', post a s' → post' a s') :
    Yields permitted x s post' := by
  rcases hx with hx | ⟨a,s',hx,hp⟩
  · exact Or.inl hx
  · exact Or.inr ⟨a,s',hx,h a s' hp⟩

/-- What a computation returned satisfies what it yields. -/
theorem yields_returned (permitted : F → Prop) (x : Stateful ε σ F α) (s s' : σ) (r : Except ε α)
    (post : α → σ → Prop) (hx : Yields permitted x s post) (h : x s = .ok (r,s')) :
    ∃ a, r = .ok a ∧ post a s' := by
  rcases hx with ⟨e,-,he⟩ | ⟨a,s1,hx,hp⟩
  · rw [he] at h
    cases h
  · rw [hx] at h
    cases h
    exact ⟨a,rfl,hp⟩

theorem yields_weaken (permitted permitted' : F → Prop) (x : Stateful ε σ F α) (s : σ)
    (post : α → σ → Prop) (h : ∀ e, permitted e → permitted' e) (hx : Yields permitted x s post) :
    Yields permitted' x s post := by
  rcases hx with ⟨e,he,hx⟩ | hx
  · exact Or.inl ⟨e,h e he,hx⟩
  · exact Or.inr hx

/-- A loop keeps an invariant that may name the elements already done. -/
theorem yields_forM (permitted : F → Prop) (f : α → Stateful ε σ F Unit) (inv : List α → σ → Prop)
    (todo done : List α) (s : σ)
    (h : ∀ done a s, a ∈ todo → inv done s →
      Yields permitted (f a) s (fun _ s' => inv (done++[a]) s'))
    (hs : inv done s) : Yields permitted (todo.forM f) s (fun _ s' => inv (done++todo) s') := by
  induction todo generalizing done s with
  | nil =>
    rw [List.append_nil]
    exact yields_pure permitted () s _ hs
  | cons a todo ih =>
    change Yields permitted (f a >>= fun _ => todo.forM f) s _
    apply yields_bind permitted _ _ s _ _ (h done a s (by simp) hs)
    intro _ s' hs'
    have hrest := ih (done++[a]) s' (fun done b s hb => h done b s (by simp [hb])) hs'
    rwa [List.append_assoc] at hrest

end Wasabi.Outcome
