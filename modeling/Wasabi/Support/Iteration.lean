import Mathlib.Tactic

/-!
# Iterators that may fail

An iterator answers each call with an item, with nothing, or with a fault. Its
walk is the list of its items together with the fault that ends it, if any.
The walk determines the answers to any number of calls and the result of a
loop over the iterator. An iterator with numbered states has a walk.
-/

set_option autoImplicit false

namespace Wasabi.Iteration

variable {ι α ε σ : Type} (next : ι → Except ε (Option α × ι))

/-- The items up to the end, which is nothing from then on or a fault. -/
inductive Walk : ι → List α → Option ε → Prop where
  | finished (it : ι) : next it = .ok (none,it) → Walk it [] none
  | failed (it : ι) (e : ε) : next it = .error e → Walk it [] (some e)
  | item (it it' : ι) (a : α) (rest : List α) (stop : Option ε) :
      next it = .ok (some a,it') → Walk it' rest stop → Walk it (a::rest) stop

/-- The answers to the next `n` calls. -/
def calls : ℕ → ι → Except ε (List (Option α))
  | 0, _ => .ok []
  | n+1, it => do
    let (answer,it) ← next it
    let answers ← calls n it
    pure (answer::answers)

/-- `for a in it { body }`, with a fault for the end of the fuel. -/
def loop (exhausted : ε) (body : σ → α → Except ε σ) : ℕ → ι → σ → Except ε σ
  | 0, _, _ => .error exhausted
  | fuel+1, it, s => do
    match ← next it with
    | (none,_) => pure s
    | (some a,it) => do
      let s ← body s a
      loop exhausted body fuel it s

/-- Each item once, and nothing ever after. -/
def answers (items : List α) (n : ℕ) : List (Option α) := (List.range n).map (fun k => items[k]?)

@[simp] theorem answers_cons (a : α) (items : List α) (n : ℕ) :
    answers (a::items) (n+1) = some a::answers items n := by
  simp [answers, List.range_succ_eq_map, Function.comp_def]

@[simp] theorem answers_nil (n : ℕ) : answers ([] : List α) (n+1) = none::answers [] n := by
  simp [answers, List.range_succ_eq_map, Function.comp_def]

theorem calls_finished (it : ι) (h : next it = .ok (none,it)) (n : ℕ) :
    calls next n it = .ok (answers [] n) := by
  induction n with
  | zero => rfl
  | succ n ih =>
    rw [calls, h, answers_nil]
    change (calls next n it >>= fun answers => pure (none::answers)) = _
    rw [ih]
    rfl

theorem calls_walk (it : ι) (items : List α) (h : Walk next it items none) (n : ℕ) :
    calls next n it = .ok (answers items n) := by
  generalize hstop : (none : Option ε) = stop at h
  induction h generalizing n with
  | finished it hnext => exact calls_finished next it hnext n
  | failed it e hnext => cases hstop
  | item it it' a rest stop hnext hwalk ih =>
    cases n with
    | zero => rfl
    | succ n =>
      rw [calls, hnext, answers_cons]
      change (calls next n it' >>= fun answers => pure (some a::answers)) = _
      rw [ih n hstop]
      rfl

theorem calls_items (it : ι) (items : List α) (stop : Option ε) (h : Walk next it items stop) :
    calls next items.length it = .ok (items.map some) := by
  induction h with
  | finished it hnext => rfl
  | failed it e hnext => rfl
  | item it it' a rest stop hnext hwalk ih =>
    rw [List.length_cons, calls, hnext]
    change (calls next rest.length it' >>= fun answers => pure (some a::answers)) = _
    rw [ih]
    rfl

theorem calls_fail (it : ι) (items : List α) (e : ε) (h : Walk next it items (some e)) :
    calls next (items.length+1) it = .error e := by
  generalize hstop : some e = stop at h
  induction h with
  | finished it hnext => cases hstop
  | failed it e' hnext =>
    cases hstop
    rw [List.length_nil, calls, hnext]
    rfl
  | item it it' a rest stop hnext hwalk ih =>
    rw [List.length_cons, calls, hnext]
    change (calls next (rest.length+1) it' >>= fun answers => pure (some a::answers)) = _
    rw [ih hstop]
    rfl

/-- A loop returns its state or passes the fault of the iterator on. -/
def ending : Option ε → σ → Except ε σ
  | none, s => .ok s
  | some e, _ => .error e

/-- A loop with fuel for the whole walk is the fold over its items. -/
theorem loop_walk (exhausted : ε) (body : σ → α → Except ε σ) (it : ι) (items : List α)
    (stop : Option ε) (h : Walk next it items stop) (fuel : ℕ) (hfuel : items.length < fuel)
    (s : σ) : loop next exhausted body fuel it s = items.foldlM body s >>= ending stop := by
  induction h generalizing fuel s with
  | finished it hnext =>
    obtain ⟨fuel,rfl⟩ : ∃ m, fuel = m+1 := ⟨fuel-1,by omega⟩
    rw [loop, hnext]
    rfl
  | failed it e hnext =>
    obtain ⟨fuel,rfl⟩ : ∃ m, fuel = m+1 := ⟨fuel-1,by omega⟩
    rw [loop, hnext]
    rfl
  | item it it' a rest stop hnext hwalk ih =>
    rw [List.length_cons] at hfuel
    obtain ⟨fuel,rfl⟩ : ∃ m, fuel = m+1 := ⟨fuel-1,by omega⟩
    rw [loop, hnext, List.foldlM_cons, bind_assoc]
    change (body s a >>= fun s => loop next exhausted body fuel it' s) = _
    congr 1
    funext s'
    exact ih fuel (by omega) s'

/-- An iterator whose states are numbered up to its end has a walk from each
of them. By induction on the calls that are left. -/
theorem numbered_walk (place : ℕ → ι) (N : ℕ) (Item : ℕ → α → Prop) (Fault : ℕ → ε → Prop)
    (hstep : ∀ k < N, (∃ a, next (place k) = .ok (some a,place (k+1)) ∧ Item k a) ∨
      ∃ e, next (place k) = .error e ∧ Fault k e)
    (hend : next (place N) = .ok (none,place N)) (k : ℕ) (hk : k ≤ N) :
    ∃ items stop, Walk next (place k) items stop ∧
      (∀ j a, items[j]? = some a → Item (k+j) a) ∧
      (stop = none ∧ k+items.length = N ∨
        ∃ e, stop = some e ∧ k+items.length < N ∧ Fault (k+items.length) e) := by
  induction hleft : N-k generalizing k with
  | zero =>
    have hlast : k = N := by omega
    subst hlast
    exact ⟨[],none,.finished _ hend,by simp,Or.inl ⟨rfl,rfl⟩⟩
  | succ left ih =>
    have hlt : k < N := by omega
    rcases hstep k hlt with ⟨a,hnext,hitem⟩ | ⟨e,hnext,hfault⟩
    · obtain ⟨rest,stop,hwalk,hitems,hstop⟩ := ih (k+1) (by omega) (by omega)
      have hindex : ∀ j, k+1+j = k+(j+1) := by omega
      refine ⟨a::rest,stop,.item _ _ a rest stop hnext hwalk,?_,?_⟩
      · intro j b hj
        cases j with
        | zero =>
          cases hj
          exact hitem
        | succ j => exact hindex j ▸ hitems j b hj
      · rw [List.length_cons, ← hindex]
        exact hstop
    · exact ⟨[],some e,.failed _ e hnext,by simp,Or.inr ⟨e,rfl,hlt,hfault⟩⟩

theorem fold_not_exhausted (exhausted : ε) (body : σ → α → Except ε σ)
    (hbody : ∀ s a, body s a ≠ .error exhausted) (items : List α) (s : σ) :
    items.foldlM body s ≠ .error exhausted := by
  induction items generalizing s with
  | nil =>
    intro h
    cases h
  | cons a items ih =>
    rw [List.foldlM_cons]
    cases hb : body s a with
    | error e =>
      intro h
      cases h
      exact hbody s a hb
    | ok s' => exact ih s'

/-- Only the body can spend all the fuel of a loop that has enough. -/
theorem loop_ends (exhausted : ε) (body : σ → α → Except ε σ)
    (hbody : ∀ s a, body s a ≠ .error exhausted) (it : ι) (items : List α) (stop : Option ε)
    (h : Walk next it items stop) (hstop : stop ≠ some exhausted) (fuel : ℕ)
    (hfuel : items.length < fuel) (s : σ) :
    loop next exhausted body fuel it s ≠ .error exhausted := by
  rw [loop_walk next exhausted body it items stop h fuel hfuel s]
  cases hfold : items.foldlM body s with
  | error e =>
    intro h
    cases h
    exact fold_not_exhausted exhausted body hbody items s hfold
  | ok s' =>
    intro h
    cases stop with
    | none => cases h
    | some e =>
      cases h
      exact hstop rfl

/-- An iterator that only ever gives items has no walk that ends. -/
theorem calls_never (it : ι) (a : α) (h : next it = .ok (some a,it)) (n : ℕ) :
    calls next n it = .ok (List.replicate n (some a)) := by
  induction n with
  | zero => rfl
  | succ n ih =>
    rw [calls, h]
    change (calls next n it >>= fun answers => pure (some a::answers)) = _
    rw [ih]
    rfl

/-- A loop over it spends all its fuel if the body comes back to its state. -/
theorem loop_never (exhausted : ε) (body : σ → α → Except ε σ) (it : ι) (a : α)
    (h : next it = .ok (some a,it)) (s : σ) (hbody : body s a = .ok s) (fuel : ℕ) :
    loop next exhausted body fuel it s = .error exhausted := by
  induction fuel with
  | zero => rfl
  | succ fuel ih =>
    rw [loop, h]
    change (body s a >>= fun s => loop next exhausted body fuel it s) = _
    rw [hbody]
    exact ih

end Wasabi.Iteration
