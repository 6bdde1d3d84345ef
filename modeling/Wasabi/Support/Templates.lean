import Mathlib.Tactic

/-!
# Filled templates

A template is a list of fixed texts, each followed by a place for a value,
and a fixed end. If the text behind every place begins with a character that
the value there cannot contain, a filled template can be told apart from what
follows it and determines its values.
-/

set_option autoImplicit false

namespace Wasabi.Templates

/-- A fixed text, and the characters that the value behind it may contain. -/
abbrev Slot := List Char × (Char → Bool)

def fill (last : List Char) : List Slot → List (List Char) → List Char
  | (text,_)::slots, v::vs => text++(v++fill last slots vs)
  | _, _ => last

/-- The fixed text behind a place. -/
def following (last : List Char) : List Slot → List Char
  | [] => last
  | (text,_)::_ => text

theorem fill_mem (last : List Char) (slots : List Slot) (vs : List (List Char)) (c : Char)
    (h : c ∈ fill last slots vs) : c ∈ last ∨ (∃ slot ∈ slots, c ∈ slot.1) ∨ ∃ v ∈ vs, c ∈ v := by
  induction slots generalizing vs with
  | nil => exact Or.inl (by cases vs <;> exact h)
  | cons slot slots ih =>
    cases vs with
    | nil => exact Or.inl h
    | cons v vs =>
      rw [fill, List.mem_append, List.mem_append] at h
      rcases h with h | h | h
      · exact Or.inr (Or.inl ⟨slot,List.mem_cons_self,h⟩)
      · exact Or.inr (Or.inr ⟨v,List.mem_cons_self,h⟩)
      · rcases ih vs h with h | ⟨s,hs,hc⟩ | ⟨w,hw,hc⟩
        · exact Or.inl h
        · exact Or.inr (Or.inl ⟨s,List.mem_cons_of_mem _ hs,hc⟩)
        · exact Or.inr (Or.inr ⟨w,List.mem_cons_of_mem _ hw,hc⟩)

/-- No value can run on into the text behind it. -/
def delimited (last : List Char) : List Slot → Bool
  | [] => true
  | (_,allowed)::slots =>
    (following last slots).head?.any (fun c => !allowed c) && delimited last slots

/-- The values have the characters that their places allow. -/
abbrev Fits (slots : List Slot) (vs : List (List Char)) : Prop :=
  List.Forall₂ (fun slot v => ∀ c ∈ v, slot.2 c = true) slots vs

theorem fits_uniform (allowed : Char → Bool) (slots : List Slot) (vs : List (List Char))
    (hl : slots.length = vs.length) (hslots : ∀ slot ∈ slots, slot.2 = allowed)
    (hvs : ∀ v ∈ vs, ∀ c ∈ v, allowed c = true) : Fits slots vs := by
  induction slots generalizing vs with
  | nil =>
    rw [List.length_eq_zero_iff.mp hl.symm]
    exact .nil
  | cons slot slots ih =>
    cases vs with
    | nil => cases hl
    | cons v vs =>
      refine .cons ?_ (ih vs (Nat.succ.inj hl) (fun s hs => hslots s (List.mem_cons_of_mem _ hs))
        (fun w hw => hvs w (List.mem_cons_of_mem _ hw)))
      rw [hslots slot List.mem_cons_self]
      exact hvs v List.mem_cons_self

/-- Two texts that are followed by a character which neither of them contains. -/
theorem split_value (allowed : Char → Bool) (v w : List Char) (c d : Char) (rest rest' : List Char)
    (hv : ∀ c ∈ v, allowed c = true) (hw : ∀ c ∈ w, allowed c = true) (hc : allowed c = false)
    (hd : allowed d = false) (h : v++c::rest = w++d::rest') : v = w ∧ c::rest = d::rest' := by
  induction v generalizing w with
  | nil =>
    cases w with
    | nil => exact ⟨rfl,h⟩
    | cons b w =>
      obtain ⟨rfl,-⟩ := List.cons.inj h
      rw [hw c List.mem_cons_self] at hc
      cases hc
  | cons a v ih =>
    cases w with
    | nil =>
      obtain ⟨rfl,-⟩ := List.cons.inj h
      rw [hv a List.mem_cons_self] at hd
      cases hd
    | cons b w =>
      obtain ⟨rfl,htail⟩ := List.cons.inj h
      obtain ⟨rfl,hrest⟩ := ih w (fun c hc => hv c (List.mem_cons_of_mem a hc))
        (fun c hc => hw c (List.mem_cons_of_mem a hc)) htail
      exact ⟨rfl,hrest⟩

theorem fill_following (last : List Char) (slots : List Slot) (vs : List (List Char))
    (h : slots.length = vs.length) : ∃ rest, fill last slots vs = following last slots++rest := by
  cases slots with
  | nil => exact ⟨[],by simp [fill, following]⟩
  | cons slot slots =>
    cases vs with
    | nil => cases h
    | cons v vs => exact ⟨_,rfl⟩

/-- A filled template determines its values and ends where it ends. -/
theorem fill_split (last : List Char) (slots : List Slot) (hd : delimited last slots = true)
    (vs ws : List (List Char)) (hv : Fits slots vs) (hw : Fits slots ws) (rest rest' : List Char)
    (h : fill last slots vs++rest = fill last slots ws++rest') : vs = ws ∧ rest = rest' := by
  induction slots generalizing vs ws with
  | nil =>
    cases hv
    cases hw
    exact ⟨rfl,List.append_cancel_left h⟩
  | cons slot slots ih =>
    obtain ⟨text,allowed⟩ := slot
    cases hv with
    | cons hv hvs =>
      cases hw with
      | cons hw hws =>
        rename_i v vs w ws
        rw [delimited, Bool.and_eq_true] at hd
        obtain ⟨hnext,hd⟩ := hd
        obtain ⟨front,hfront⟩ := fill_following last slots vs hvs.length_eq
        obtain ⟨front',hfront'⟩ := fill_following last slots ws hws.length_eq
        cases htext : following last slots with
        | nil =>
          rw [htext] at hnext
          cases hnext
        | cons c text' =>
          rw [htext] at hnext hfront hfront'
          have hc : allowed c = false := by simpa using hnext
          simp only [fill, List.append_assoc] at h
          have h := List.append_cancel_left h
          rw [hfront, hfront'] at h
          simp only [List.cons_append] at h
          obtain ⟨rfl,htail⟩ := split_value allowed v w c c _ _ hv hw hc hc h
          rw [← List.cons_append, ← List.cons_append, ← List.cons_append, ← List.cons_append,
            ← hfront, ← hfront'] at htail
          obtain ⟨rfl,hrest⟩ := ih hd vs ws hvs hws htail
          exact ⟨rfl,hrest⟩

theorem fill_head (last : List Char) (slots : List Slot) (c : Char)
    (hc : (following last slots).head? = some c) (vs : List (List Char)) (h : Fits slots vs) :
    ∃ text, fill last slots vs = c::text := by
  obtain ⟨rest,hrest⟩ := fill_following last slots vs h.length_eq
  obtain ⟨text,htext⟩ := List.head?_eq_some_iff.mp hc
  exact ⟨text++rest,by rw [hrest, htext, List.cons_append]⟩

/-- Filled templates one behind the other, and a text behind them that begins
differently, determine the values of each. -/
theorem fills_split (last : List Char) (slots : List Slot) (hd : delimited last slots = true)
    (c : Char) (hc : (following last slots).head? = some c) (vss wss : List (List (List Char)))
    (hv : ∀ vs ∈ vss, Fits slots vs) (hw : ∀ ws ∈ wss, Fits slots ws) (rest rest' : List Char)
    (hr : rest.head? ≠ some c) (hr' : rest'.head? ≠ some c)
    (h : vss.flatMap (fill last slots)++rest = wss.flatMap (fill last slots)++rest') :
    vss = wss ∧ rest = rest' := by
  induction vss generalizing wss with
  | nil =>
    cases wss with
    | nil => exact ⟨rfl,h⟩
    | cons ws wss =>
      obtain ⟨text,htext⟩ := fill_head last slots c hc ws (hw ws List.mem_cons_self)
      rw [List.flatMap_nil, List.nil_append, List.flatMap_cons, htext] at h
      rw [h] at hr
      exact absurd rfl hr
  | cons vs vss ih =>
    cases wss with
    | nil =>
      obtain ⟨text,htext⟩ := fill_head last slots c hc vs (hv vs List.mem_cons_self)
      rw [List.flatMap_nil, List.nil_append, List.flatMap_cons, htext] at h
      rw [← h] at hr'
      exact absurd rfl hr'
    | cons ws wss =>
      rw [List.flatMap_cons, List.flatMap_cons, List.append_assoc, List.append_assoc] at h
      obtain ⟨rfl,hrest⟩ := fill_split last slots hd vs ws (hv vs List.mem_cons_self)
        (hw ws List.mem_cons_self) _ _ h
      obtain ⟨rfl,hend⟩ := ih wss (fun us hus => hv us (List.mem_cons_of_mem vs hus))
        (fun us hus => hw us (List.mem_cons_of_mem vs hus)) hrest
      exact ⟨rfl,hend⟩

end Wasabi.Templates
