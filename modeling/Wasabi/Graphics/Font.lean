import Wasabi.Support.TextLines
import Wasabi.Support.HexText

/-!
# The font table

The table is read from a text of lines. A line `0xHH` names a code, the next
sixteen lines are its glyph, and the scan goes on with the first of these
lines again. Every glyph starts out as a block of stars, and a later header
of the same code replaces the glyph.
-/

set_option autoImplicit false

namespace Wasabi.Graphics.Font
open Wasabi.TextLines Wasabi.HexText

abbrev Line := List Char

abbrev Row := Fin 8 → Char

abbrev Glyph := Fin 16 → Row

abbrev FontTable := UInt8 → Glyph

/-- One turn of `u8::from_str_radix(src, 16)`; the value must stay a byte, and
`toDigit` is `char::to_digit(16)`. -/
def appendDigit (value : ℕ) (c : Char) : Option ℕ := do
  let digit ← toDigit c
  if value*16+digit < 256 then some (value*16+digit) else none

def dropSign : List Char → List Char
  | '+'::digits => digits
  | digits => digits

/-- `u8::from_str_radix(src, 16)`: a sign may precede one or more digits. -/
def fromStrRadix (src : List Char) : Option UInt8 :=
  if dropSign src = [] then none
  else ((dropSign src).foldlM appendDigit 0).map UInt8.ofNat

/-- The code of a line `0x..`, if it is one. -/
def header (line : Line) : Option UInt8 :=
  match line with
  | '0' :: 'x' :: digits => fromStrRadix digits
  | _ => none

/-- An access to element `i`; behind the end of the array there is none. -/
def modifyAt {n : ℕ} {β : Type} (v : Fin n → β) (i : ℕ) (f : β → β) : Fin n → β :=
  fun j => if j.val = i then f (v j) else v j

/-- `for (x, c) in line.chars().enumerate()`. -/
def readRow (row : Row) (line : Line) : Row :=
  line.zipIdx.foldl (fun row (c,x) => modifyAt row x (fun _ => c)) row

/-- `for (y, line) in fi.clone().take(16).enumerate()`. -/
def readGlyph (fi : List Line) : Glyph :=
  (fi.take 16).zipIdx.foldl (fun glyph (line,y) => modifyAt glyph y (fun row => readRow row line))
    (fun _ _ => '*')

/-- `while let Some(line) = fi.next()`. -/
def readLines (font : FontTable) : List Line → FontTable
  | [] => font
  | line::fi =>
    match header line with
    | some idx => readLines (Function.update font idx (readGlyph fi)) fi
    | none => readLines font fi

/-- The closure that fills the cache. -/
def readFont (source : List Char) : FontTable :=
  readLines (fun _ _ _ => '*') (source.splitOn '\n')

/-- The glyph of a character with one byte. -/
def glyphOf (font : FontTable) (c : Char) : Option Glyph :=
  if c.toNat ≤ 0xFF then some (font (UInt8.ofNat c.toNat)) else none

/-- The glyph together with the cache after the call. -/
def lookupFont (source : List Char) (cache : Option FontTable) (c : Char) :
    Option Glyph × Option FontTable :=
  if c.toNat ≤ 0xFF then
    let font := cache.getD (readFont source)
    (some (font (UInt8.ofNat c.toNat)),some font)
  else (none,cache)

/-- A filled cache holds the table of the source. -/
def CacheOk (source : List Char) (cache : Option FontTable) : Prop :=
  ∀ font ∈ cache, font = readFont source

/-- Each call finds the glyph of the table, whatever was looked up before. -/
theorem lookupFont_eq (source : List Char) (cache : Option FontTable)
    (h : CacheOk source cache) (c : Char) :
    (lookupFont source cache c).1 = glyphOf (readFont source) c ∧
      CacheOk source (lookupFont source cache c).2 := by
  have hfont : cache.getD (readFont source) = readFont source := by
    cases cache with
    | none => rfl
    | some font => exact h font rfl
  rw [lookupFont, glyphOf, hfont]
  split_ifs
  · exact ⟨rfl,fun font hf => (Option.some.inj hf).symm⟩
  · exact ⟨rfl,h⟩

/-- A loop over an enumeration gives each place its own turn. -/
theorem foldl_modifyAt {n : ℕ} {α β : Type} (g : α → β → β) (l : List α) (k : ℕ)
    (v : Fin n → β) (j : Fin n) : (l.zipIdx k).foldl (fun v (a,i) => modifyAt v i (g a)) v j =
      if k ≤ j.val then (l[j.val-k]?).elim (v j) (fun a => g a (v j)) else v j := by
  induction l generalizing k v with
  | nil => simp
  | cons a l ih =>
    rw [List.zipIdx_cons, List.foldl_cons, ih]
    unfold modifyAt
    by_cases hj : j.val = k
    · simp [hj]
    · by_cases hk : k ≤ j.val
      · obtain ⟨m,hm⟩ : ∃ m, j.val = k+1+m := ⟨j.val-(k+1),by omega⟩
        have h1 : j.val-k = m+1 := by omega
        have h2 : j.val-(k+1) = m := by omega
        simp [hj, hk, h1, h2, show k+1 ≤ j.val by omega]
      · simp [hj, hk, show ¬ k+1 ≤ j.val by omega]

theorem readRow_apply (row : Row) (l : Line) (x : Fin 8) :
    readRow row l x = (l[x.val]?).getD (row x) := by
  have h := foldl_modifyAt (fun c _ => c) l 0 row x
  rw [if_pos (Nat.zero_le _), Nat.sub_zero] at h
  rw [readRow]
  refine h.trans ?_
  cases l[x.val]? <;> rfl

theorem readGlyph_apply (fi : List Line) (y : Fin 16) (x : Fin 8) :
    readGlyph fi y x = ((fi[y.val]?).bind (fun l => l[x.val]?)).getD '*' := by
  have h := foldl_modifyAt (fun line row => readRow row line) (fi.take 16) 0 (fun _ _ => '*') y
  rw [if_pos (Nat.zero_le _), Nat.sub_zero, List.getElem?_take_of_lt y.isLt] at h
  rw [readGlyph]
  refine (congrFun h x).trans ?_
  cases fi[y.val]? with
  | none => rfl
  | some l => exact readRow_apply _ l x

end Wasabi.Graphics.Font
