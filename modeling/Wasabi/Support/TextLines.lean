import Mathlib.Tactic

/-!
# Lines of a text

A text over any alphabet is cut at a separator. Written from left to right it
either extends its last line or begins a new one, so the position of the next
character is the number of finished lines and the length of the last one.
-/

set_option autoImplicit false

namespace Wasabi.TextLines

variable {α : Type} [DecidableEq α] (a : α)

theorem splitOn_snoc_separator (s : List α) : (s++[a]).splitOn a = s.splitOn a++[[]] := by
  rw [List.splitOn_append_cons_self, List.splitOn_nil]

/-- A character that is not the separator extends the last line. -/
theorem splitOn_snoc (s : List α) (c : α) (hc : c ≠ a) :
    ∃ front last, s.splitOn a = front++[last] ∧ (s++[c]).splitOn a = front++[last++[c]] := by
  induction s with
  | nil => exact ⟨[],[],by simp,List.splitOn_eq_singleton (by simpa using hc.symm)⟩
  | cons x s ih =>
    obtain ⟨front,last,h1,h2⟩ := ih
    rw [List.cons_append, List.splitOn_cons_eq_if_modifyHead, List.splitOn_cons_eq_if_modifyHead,
      h1, h2]
    by_cases hx : (x == a) = true
    · rw [if_pos hx, if_pos hx]
      exact ⟨[]::front,last,rfl,rfl⟩
    · rw [if_neg hx, if_neg hx]
      cases front with
      | nil => exact ⟨[],x::last,rfl,rfl⟩
      | cons l front => exact ⟨(x::l)::front,last,rfl,rfl⟩

/-- Joined lines are cut again into these lines; at most empty lines follow,
one for a separator at the end or for a text without lines. -/
theorem splitOn_joined (ls : List (List α)) (h : ∀ l ∈ ls, a ∉ l) (final : Bool) :
    ∃ k, ([a].intercalate ls++if final then [a] else []).splitOn a = ls++List.replicate k [] := by
  have hjoin : ∃ k, ([a].intercalate ls).splitOn a = ls++List.replicate k [] := by
    by_cases hls : ls = []
    · exact ⟨1,by simp [hls, List.intercalate]⟩
    · exact ⟨0,by rw [List.splitOn_intercalate a h hls]; simp⟩
  obtain ⟨k,hk⟩ := hjoin
  cases final with
  | false => exact ⟨k,by rw [if_neg Bool.false_ne_true, List.append_nil, hk]⟩
  | true =>
    refine ⟨k+1,?_⟩
    rw [if_pos rfl, splitOn_snoc_separator, hk, List.append_assoc, List.replicate_succ']

/-- The character in line `i` and column `j`. -/
def charAt (s : List α) (i j : ℕ) : Option α := (s.splitOn a)[i]?.bind (fun l => l[j]?)

theorem charAt_nil (i j : ℕ) : charAt a ([] : List α) i j = none := by
  rw [charAt, List.splitOn_nil]
  cases i <;> simp

theorem charAt_snoc_separator (s : List α) (i j : ℕ) : charAt a (s++[a]) i j = charAt a s i j := by
  rw [charAt, charAt, splitOn_snoc_separator, List.getElem?_append]
  split_ifs with h
  · rfl
  · rw [List.getElem?_eq_none (by omega : (s.splitOn a).length ≤ i)]
    cases i-(s.splitOn a).length <;> simp

/-- The next character stands behind the last line. -/
theorem charAt_snoc (s : List α) (c : α) (hc : c ≠ a) (front : List (List α)) (last : List α)
    (hs : s.splitOn a = front++[last]) (i j : ℕ) (d : α) :
    charAt a (s++[c]) i j = some d ↔
      charAt a s i j = some d ∨ i = front.length ∧ j = last.length ∧ d = c := by
  obtain ⟨front',last',h1,h2⟩ := splitOn_snoc a s c hc
  rw [hs] at h1
  obtain ⟨rfl,hlast⟩ := List.append_inj' h1 rfl
  obtain rfl : last = last' := by simpa using hlast
  rw [charAt, charAt, hs, h2, List.getElem?_append, List.getElem?_append]
  split_ifs with hi
  · constructor
    · exact Or.inl
    · rintro (h | ⟨rfl,-⟩)
      · exact h
      · omega
  · by_cases hlen : i = front.length
    · subst hlen
      simp only [Nat.sub_self, List.getElem?_cons_zero, Option.bind_some, true_and]
      rw [List.getElem?_append]
      split_ifs with hj
      · constructor
        · exact Or.inl
        · rintro (h | ⟨rfl,-⟩)
          · exact h
          · omega
      · rw [List.getElem?_eq_none (by omega : last.length ≤ j)]
        by_cases hj' : j = last.length
        · subst hj'
          simp [eq_comm]
        · rw [List.getElem?_eq_none (by simp; omega)]
          simp [hj']
    · obtain ⟨m,hm⟩ : ∃ m, i-front.length = m+1 := ⟨i-front.length-1,by omega⟩
      simp [hm, hlen]

end Wasabi.TextLines
