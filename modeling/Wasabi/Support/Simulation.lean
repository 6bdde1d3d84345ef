import Wasabi.Support.Outcome

/-!
# Simulation up to a capacity

A concrete computation follows an abstract one that draws on an unlimited
supply. The weight of the abstract state never falls, and the concrete one
reaches a related state exactly as long as the weight stays within the
capacity; past it the concrete one stops with one named fault. The rules
follow the shape of the two programs, which is the same.
-/

set_option autoImplicit false

namespace Wasabi.Simulation
open Wasabi.Outcome

variable {ε σ τ F α β : Type} (R : σ → τ → Prop) (weight : τ → ℕ) (capacity : ℕ) (full : F)

structure Simulates (x : Stateful ε σ F α) (y : Stateful ε τ F α) : Prop where
  grows : ∀ t r t', y t = .ok (r,t') → weight t ≤ weight t'
  follows : ∀ s t r t', R s t → y t = .ok (r,t') → weight t' ≤ capacity →
    ∃ s', x s = .ok (r,s') ∧ R s' t'
  stops : ∀ s t r t', R s t → y t = .ok (r,t') → capacity < weight t' → x s = .error full

/-- An error value ends a sequence and keeps the state. -/
theorem run_bind_err (x : Stateful ε σ F α) (f : α → Stateful ε σ F β) (s s' : σ) (e : ε)
    (hx : x s = .ok (.error e,s')) : (x >>= f) s = .ok (.error e,s') := by
  change (do let r ← x s; _) = _
  rw [hx]
  rfl

/-- A sequence with a result ended in its first part or went on to the second. -/
theorem bind_result (x : Stateful ε σ F α) (f : α → Stateful ε σ F β) (s s' : σ)
    (r : Except ε β) (h : (x >>= f) s = .ok (r,s')) :
    (∃ e, x s = .ok (.error e,s') ∧ r = .error e) ∨
      ∃ a s1, x s = .ok (.ok a,s1) ∧ f a s1 = .ok (r,s') := by
  cases hx : x s with
  | error e =>
    rw [run_bind_fault x f s e hx] at h
    cases h
  | ok q =>
    obtain ⟨q,s1⟩ := q
    cases q with
    | error e =>
      rw [run_bind_err x f s s1 e hx] at h
      cases h
      exact Or.inl ⟨e,rfl,rfl⟩
    | ok a =>
      rw [run_bind x f s s1 a hx] at h
      exact Or.inr ⟨a,s1,rfl,h⟩

section Rules
variable {R weight capacity full}
variable (hR : ∀ s t, R s t → weight t ≤ capacity)

section Idle
include hR

/-- Computations that leave related states alone. -/
theorem sim_idle (x : Stateful ε σ F α) (y : Stateful ε τ F α)
    (hy : ∀ t r t', y t = .ok (r,t') → t' = t)
    (h : ∀ s t r, R s t → y t = .ok (r,t) → x s = .ok (r,s)) :
    Simulates R weight capacity full x y := by
  constructor
  · intro t r t' hrun
    rw [hy t r t' hrun]
  · intro s t r t' hst hrun _
    obtain rfl := hy t r t' hrun
    exact ⟨s,h s t' r hst hrun,hst⟩
  · intro s t r t' hst hrun hw
    obtain rfl := hy t r t' hrun
    have hle := hR s t' hst
    omega

theorem sim_pure (a : α) :
    Simulates R weight capacity full (pure a : Stateful ε σ F α) (pure a) := by
  apply sim_idle hR
  · intro t r t' h
    cases h
    rfl
  · intro s t r _ h
    cases h
    rfl

theorem sim_throw (e : ε) :
    Simulates R weight capacity full (throw e : Stateful ε σ F α) (throw e) := by
  apply sim_idle hR
  · intro t r t' h
    cases h
    rfl
  · intro s t r _ h
    cases h
    rfl

theorem sim_observe (f : σ → Except F α) (g : τ → Except F α)
    (h : ∀ s t a, R s t → g t = .ok a → f s = .ok a) :
    Simulates R weight capacity full (observe f : Stateful ε σ F α) (observe g) := by
  have hobserve : ∀ t r t', (observe g : Stateful ε τ F α) t = .ok (r,t') →
      ∃ a, g t = .ok a ∧ r = .ok a ∧ t' = t := by
    intro t r t' hrun
    cases hg : g t with
    | error e =>
      rw [observe, hg] at hrun
      cases hrun
    | ok a =>
      rw [observe_ok g t a hg] at hrun
      cases hrun
      exact ⟨a,rfl,rfl,rfl⟩
  apply sim_idle hR
  · intro t r t' hrun
    obtain ⟨a,-,-,ht⟩ := hobserve t r t' hrun
    exact ht
  · intro s t r hst hrun
    obtain ⟨a,hg,rfl,-⟩ := hobserve t r t hrun
    exact observe_ok f s a (h s t a hst hg)

end Idle

/-- In a sequence the second parts are compared on the values that the first
part of the abstract computation returns. -/
theorem sim_bind (x : Stateful ε σ F α) (y : Stateful ε τ F α) (f : α → Stateful ε σ F β)
    (g : α → Stateful ε τ F β) (hx : Simulates R weight capacity full x y)
    (hf : ∀ a t t', y t = .ok (.ok a,t') → Simulates R weight capacity full (f a) (g a)) :
    Simulates R weight capacity full (x >>= f) (y >>= g) := by
  constructor
  · intro t r t' hrun
    rcases bind_result y g t t' r hrun with ⟨e,hy,-⟩ | ⟨a,t1,hy,hg⟩
    · exact hx.grows t _ t' hy
    · exact (hx.grows t _ t1 hy).trans ((hf a t t1 hy).grows t1 r t' hg)
  · intro s t r t' hst hrun hw
    rcases bind_result y g t t' r hrun with ⟨e,hy,rfl⟩ | ⟨a,t1,hy,hg⟩
    · obtain ⟨s',hxs,hst'⟩ := hx.follows s t _ t' hst hy hw
      exact ⟨s',run_bind_err x f s s' e hxs,hst'⟩
    · have hle := (hf a t t1 hy).grows t1 r t' hg
      obtain ⟨s1,hxs,hst1⟩ := hx.follows s t _ t1 hst hy (hle.trans hw)
      rw [run_bind x f s s1 a hxs]
      exact (hf a t t1 hy).follows s1 t1 r t' hst1 hg hw
  · intro s t r t' hst hrun hw
    rcases bind_result y g t t' r hrun with ⟨e,hy,-⟩ | ⟨a,t1,hy,hg⟩
    · exact run_bind_fault x f s full (hx.stops s t _ t' hst hy hw)
    · by_cases hw1 : weight t1 ≤ capacity
      · obtain ⟨s1,hxs,hst1⟩ := hx.follows s t _ t1 hst hy hw1
        rw [run_bind x f s s1 a hxs]
        exact (hf a t t1 hy).stops s1 t1 r t' hst1 hg hw
      · exact run_bind_fault x f s full (hx.stops s t _ t1 hst hy (by omega))

theorem sim_ite (p : Prop) [Decidable p] (x x' : Stateful ε σ F α) (y y' : Stateful ε τ F α)
    (h : p → Simulates R weight capacity full x y)
    (h' : ¬ p → Simulates R weight capacity full x' y') :
    Simulates R weight capacity full (if p then x else x') (if p then y else y') := by
  by_cases hp : p
  · rw [if_pos hp, if_pos hp]
    exact h hp
  · rw [if_neg hp, if_neg hp]
    exact h' hp

include hR in
theorem sim_forM (f : α → Stateful ε σ F Unit) (g : α → Stateful ε τ F Unit) (l : List α)
    (h : ∀ a ∈ l, Simulates R weight capacity full (f a) (g a)) :
    Simulates R weight capacity full (l.forM f) (l.forM g) := by
  induction l with
  | nil => exact sim_pure hR ()
  | cons a l ih =>
    apply sim_bind (f a) (g a) (fun _ => l.forM f) (fun _ => l.forM g) (h a (by simp))
    intro _ _ _ _
    exact ih (fun b hb => h b (by simp [hb]))

end Rules

end Wasabi.Simulation
