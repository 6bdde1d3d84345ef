import Wasabi.Graphics.Font

/-!
# The font file

A glyph is printed as a header and sixteen rows of eight characters, each with
an arbitrary rest, and is followed by lines that are not headers. No row can
begin like a header, so reading such a file gives back the last glyph printed
for each code.
-/

set_option autoImplicit false

namespace Wasabi.Graphics.FontFormat
open Wasabi.TextLines Wasabi.HexText Wasabi.Graphics.Font

/-- A line that does not begin with `0x`. -/
def Other (l : Line) : Prop := '\n' ∉ l ∧ ¬ ['0','x'] <+: l

/-- A glyph as it is printed, with the lines up to the next header. -/
structure Printed where
  code : UInt8
  upper : Bool × Bool
  glyph : Glyph
  surplus : Fin 16 → List Char
  gap : List Line
  alphabet : ∀ y x, glyph y x ∈ ['.','*',' ']
  single : ∀ y, '\n' ∉ surplus y
  others : ∀ l ∈ gap, Other l

def Printed.header (e : Printed) : Line :=
  ['0','x',hexDigit e.upper.1 (e.code.toNat/16),hexDigit e.upper.2 (e.code.toNat%16)]

def Printed.row (e : Printed) (y : Fin 16) : Line := List.ofFn (e.glyph y)++e.surplus y

def Printed.lines (e : Printed) : List Line := e.header::(List.ofFn e.row++e.gap)

/-- The text of a file, with or without a newline at its end. -/
def printFont (before : List Line) (entries : List Printed) (final : Bool) : List Char :=
  ['\n'].intercalate (before++entries.flatMap Printed.lines)++if final then ['\n'] else []

theorem digits_read (u v : Bool) (n : UInt8) :
    fromStrRadix [hexDigit u (n.toNat/16),hexDigit v (n.toNat%16)] = some n := by
  have hlt : n.toNat < 256 := n.toNat_lt
  have h1 := toDigit_hexDigit u (n.toNat/16) (by omega)
  have h2 := toDigit_hexDigit v (n.toNat%16) (by omega)
  have hplus := hexDigit_ne u (n.toNat/16) (by omega) '+' (by decide)
  have hsign : dropSign [hexDigit u (n.toNat/16),hexDigit v (n.toNat%16)] =
      [hexDigit u (n.toNat/16),hexDigit v (n.toNat%16)] := by
    unfold dropSign
    split
    · rename_i digits heq
      exact absurd (List.cons.inj heq).1 hplus
    · rfl
  have hstep1 : appendDigit 0 (hexDigit u (n.toNat/16)) = some (n.toNat/16) := by
    simp [appendDigit, h1]
    omega
  have hstep2 : appendDigit (n.toNat/16) (hexDigit v (n.toNat%16)) = some n.toNat := by
    simp [appendDigit, h2, Nat.div_add_mod', hlt]
  rw [fromStrRadix, hsign, if_neg (by simp), List.foldlM_cons, hstep1, Option.bind_eq_bind,
    Option.bind_some, List.foldlM_cons, hstep2]
  simp

theorem header_printed (e : Printed) : Font.header e.header = some e.code :=
  digits_read e.upper.1 e.upper.2 e.code

theorem header_other (l : Line) (h : Other l) : Font.header l = none := by
  unfold Font.header
  split
  · rename_i digits
    exact absurd ⟨digits,rfl⟩ h.2
  · rfl

theorem header_line (e : Printed) : '\n' ∉ e.header := by
  have hlt : e.code.toNat < 256 := e.code.toNat_lt
  have h1 := hexDigit_ne e.upper.1 (e.code.toNat/16) (by omega) '\n' (by decide)
  have h2 := hexDigit_ne e.upper.2 (e.code.toNat%16) (by omega) '\n' (by decide)
  simp [Printed.header, h1.symm, h2.symm]

/-- A row begins with a glyph character, so it is not a header. -/
theorem row_other (e : Printed) (y : Fin 16) : Other (e.row y) := by
  constructor
  · intro hmem
    rcases List.mem_append.mp hmem with h | h
    · obtain ⟨x,hx⟩ := List.mem_ofFn.mp h
      have ha := e.alphabet y x
      rw [hx] at ha
      exact absurd ha (by decide)
    · exact e.single y h
  · rintro ⟨t,ht⟩
    rw [Printed.row, List.ofFn_succ] at ht
    have ha := e.alphabet y 0
    rw [← (List.cons.inj ht).1] at ha
    exact absurd ha (by decide)

/-- The sixteen lines behind a header are the rows of its glyph. -/
theorem readGlyph_rows (e : Printed) (rest : List Line) :
    readGlyph (List.ofFn e.row++rest) = e.glyph := by
  funext y x
  have hrow : (List.ofFn e.row++rest)[y.val]? = some (e.row y) := by
    rw [List.getElem?_append_left (by simp), List.getElem?_ofFn]
    simp
  have hcell : (e.row y)[x.val]? = some (e.glyph y x) := by
    rw [Printed.row, List.getElem?_append_left (by simp), List.getElem?_ofFn]
    simp
  rw [readGlyph_apply, hrow, Option.bind_some, hcell, Option.getD_some]

/-- Lines that are not headers are skipped. -/
theorem readLines_others (font : FontTable) (ls rest : List Line) (h : ∀ l ∈ ls, Other l) :
    readLines font (ls++rest) = readLines font rest := by
  induction ls with
  | nil => rfl
  | cons l ls ih =>
    rw [List.cons_append, readLines, header_other l (h l (by simp))]
    exact ih (fun m hm => h m (by simp [hm]))

theorem readLines_entry (font : FontTable) (e : Printed) (rest : List Line) :
    readLines font (e.lines++rest) = readLines (Function.update font e.code e.glyph) rest := by
  have hothers : ∀ l ∈ List.ofFn e.row++e.gap, Other l := by
    intro l hl
    rcases List.mem_append.mp hl with h | h
    · obtain ⟨y,rfl⟩ := List.mem_ofFn.mp h
      exact row_other e y
    · exact e.others l h
  rw [Printed.lines, List.cons_append, readLines, header_printed]
  simp only
  rw [List.append_assoc, readGlyph_rows, ← List.append_assoc, readLines_others _ _ _ hothers]

theorem readLines_entries (font : FontTable) (entries : List Printed) (rest : List Line) :
    readLines font (entries.flatMap Printed.lines++rest) =
      readLines (entries.foldl (fun font e => Function.update font e.code e.glyph) font) rest := by
  induction entries generalizing font with
  | nil => rfl
  | cons e entries ih =>
    rw [List.flatMap_cons, List.append_assoc, readLines_entry, ih, List.foldl_cons]

/-- Reading a printed file is a sequence of updates, one for each glyph. -/
theorem readFont_printed (before : List Line) (entries : List Printed) (final : Bool)
    (h : ∀ l ∈ before, Other l) : readFont (printFont before entries final) =
      entries.foldl (fun font e => Function.update font e.code e.glyph) (fun _ _ _ => '*') := by
  have hlines : ∀ l ∈ before++entries.flatMap Printed.lines, '\n' ∉ l := by
    intro l hl
    rcases List.mem_append.mp hl with hl | hl
    · exact (h l hl).1
    · obtain ⟨e,-,hl⟩ := List.mem_flatMap.mp hl
      rcases List.mem_cons.mp hl with rfl | hl
      · exact header_line e
      · rcases List.mem_append.mp hl with hl | hl
        · obtain ⟨y,rfl⟩ := List.mem_ofFn.mp hl
          exact (row_other e y).1
        · exact (e.others l hl).1
  obtain ⟨k,hk⟩ := splitOn_joined '\n' _ hlines final
  have hblank : ∀ l ∈ List.replicate k ([] : Line), Other l := by
    intro l hl
    rw [List.eq_of_mem_replicate hl]
    exact ⟨by simp,by simp⟩
  have hend := readLines_others (entries.foldl (fun font e => Function.update font e.code e.glyph)
    (fun _ _ _ => '*')) _ [] hblank
  rw [List.append_nil] at hend
  rw [readFont, printFont, hk, List.append_assoc, readLines_others _ _ _ h, readLines_entries, hend]
  rfl

theorem foldl_absent (entries : List Printed) (font : FontTable) (c : UInt8)
    (h : ∀ e ∈ entries, e.code ≠ c) :
    entries.foldl (fun font e => Function.update font e.code e.glyph) font c = font c := by
  induction entries generalizing font with
  | nil => rfl
  | cons e entries ih =>
    rw [List.foldl_cons, ih _ (fun d hd => h d (by simp [hd]))]
    exact Function.update_of_ne (h e (by simp)).symm _ _

/-- Reading a printed file gives each code the last glyph printed for it, and
all other codes a block of stars. No row of a glyph is a header. -/
theorem parse_inverts (before : List Line) (entries : List Printed) (final : Bool)
    (h : ∀ l ∈ before, Other l) :
    (∀ pre e post, entries = pre++e::post → (∀ o ∈ post, o.code ≠ e.code) →
      readFont (printFont before entries final) e.code = e.glyph) ∧
    (∀ c, (∀ e ∈ entries, e.code ≠ c) →
      readFont (printFont before entries final) c = fun _ _ => '*') ∧
    ∀ e ∈ entries, ∀ y, Font.header (e.row y) = none := by
  rw [readFont_printed before entries final h]
  refine ⟨?_,?_,fun e _ y => header_other _ (row_other e y)⟩
  · rintro pre e post rfl hlast
    rw [List.foldl_append, List.foldl_cons, foldl_absent post _ e.code hlast, Function.update_self]
  · intro c hc
    exact foldl_absent entries _ c hc

/-- A dot in the corner of a blank glyph, with a longer first row. -/
def corner : Printed where
  code := 0xb8
  upper := (false,true)
  glyph := fun y x => if y = 0 ∧ x = 0 then '*' else '.'
  surplus := fun y => if y = 0 then ['.'] else []
  gap := [[],['#']]
  alphabet := by decide
  single := by decide
  others := by
    intro l hl
    rcases List.mem_cons.mp hl with rfl | hl
    · exact ⟨by decide,by decide⟩
    · rw [List.mem_singleton.mp hl]
      exact ⟨by decide,by decide⟩

theorem parse_inverts_corner :
    readFont (printFont [[]] [corner,corner] true) 0xb8 = corner.glyph ∧
      readFont (printFont [[]] [corner,corner] true) 0xb9 = fun _ _ => '*' := by
  have hblank : ∀ l ∈ [([] : Line)], Other l := by
    intro l hl
    rw [List.mem_singleton.mp hl]
    exact ⟨by decide,by decide⟩
  obtain ⟨hlast,hrest,-⟩ := parse_inverts [[]] [corner,corner] true hblank
  exact ⟨hlast [corner] corner [] rfl (by simp),hrest 0xb9 (by decide)⟩

end Wasabi.Graphics.FontFormat
