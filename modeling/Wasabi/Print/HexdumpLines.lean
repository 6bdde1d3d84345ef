import Wasabi.Print.HexdumpText

/-!
# Lines and cells of a hex dump

A reader expects one line for each row and one character for each byte value.
No row is ended by a newline, and the code behind the loop shows the byte
`0x7f` itself where the loop shows a dot.
-/

set_option autoImplicit false

namespace Wasabi.Print.HexdumpLines
open Wasabi.Rust Wasabi.HexText Wasabi.Print.Hexdump Wasabi.Print.HexdumpText

/-- One line for each row, each ended by a newline. -/
def LinePerRow (bytes : List UInt8) (out : List Char) : Prop :=
  ∃ lines : List (List Char), lines.length = (bytes.length+15)/16 ∧
    (∀ l ∈ lines, '\n' ∉ l) ∧ out = lines.flatMap (fun l => l++['\n'])

/-- The character that a byte should have in every row. -/
def uniformCell (v : UInt8) : Char :=
  if 0x20 ≤ v ∧ v ≤ 0x7e then Char.ofNat v.toNat else '.'

/-- Byte `j` is shown in column `j%16` of row `j/16` by its own character. -/
def CellsUniform (bytes : List UInt8) (out : List Char) : Prop :=
  ∀ j v, bytes[j]? = some v →
    (out.filter (· ≠ '\n'))[76*(j/16)+(59+j%16)]? = some (uniformCell v)

theorem rows_length (bytes : List UInt8) (m : ℕ) (h : 16*m ≤ bytes.length) :
    ((List.range m).flatMap (row bytes)).length = 76*m := by
  induction m with
  | zero => rfl
  | succ m ih =>
    have hchunk := chunk_length bytes m
    rw [List.range_succ, List.flatMap_append, List.length_append, ih (by omega),
      List.flatMap_singleton, row, layout_length _ _ _ (by omega)]
    omega

/-- A place in row `k` of the dump. -/
theorem rows_getElem (bytes : List UInt8) (m k p : ℕ) (hm : 16*m < bytes.length+16) (hk : k < m)
    (hp : p < (row bytes k).length) :
    ((List.range m).flatMap (row bytes))[76*k+p]? = (row bytes k)[p]? := by
  induction m with
  | zero => omega
  | succ m ih =>
    have hlen := rows_length bytes m (by omega)
    have hchunk := chunk_length bytes k
    have hrow : (row bytes k).length = 60+(chunk bytes k).length :=
      layout_length _ _ _ (by omega)
    rw [List.range_succ, List.flatMap_append, List.flatMap_singleton]
    by_cases hlast : k = m
    · subst hlast
      rw [List.getElem?_append_right (by omega), hlen, Nat.add_sub_cancel_left]
    · rw [List.getElem?_append_left (by omega)]
      exact ih (by omega) (by omega)

theorem layout_getElem (shown : UInt8 → Char) (offset : ℕ) (row : List UInt8) (c : ℕ) (v : UInt8)
    (hlen : row.length ≤ 16) (hv : row[c]? = some v) :
    (layout shown offset row)[59+c]? = some (shown v) := by
  have hc : c < row.length := (List.getElem?_eq_some_iff.mp hv).1
  have hfront := cells_length offset row hlen
  rw [layout, List.append_assoc _ (row.map shown), List.getElem?_append_right (by omega), hfront,
    Nat.add_sub_cancel_left, List.getElem?_append_left (by rw [List.length_map]; exact hc),
    List.getElem?_map, hv, Option.map_some]

/-- The character at the place of byte `j`. -/
theorem shown_at (bytes : List UInt8) (j : ℕ) (v : UInt8) (hv : bytes[j]? = some v) :
    ((List.range ((bytes.length+15)/16)).flatMap (row bytes))[76*(j/16)+(59+j%16)]? =
      some (shownIn (chunk bytes (j/16)) v) := by
  have hj : j < bytes.length := (List.getElem?_eq_some_iff.mp hv).1
  have hchunk := chunk_length bytes (j/16)
  have hrow : (row bytes (j/16)).length = 60+(chunk bytes (j/16)).length :=
    layout_length _ _ _ (by omega)
  have hcell : (chunk bytes (j/16))[j%16]? = some v := by
    rw [chunk_getElem _ _ _ (Nat.mod_lt _ (by decide)), Nat.div_add_mod, hv]
  rw [rows_getElem bytes _ _ _ (by omega) (by omega) (by omega), row]
  exact layout_getElem _ _ _ _ v (by omega) hcell

/-- The two copies of the row code differ in one byte value. -/
theorem lastCell_uniform_iff (v : UInt8) : lastCell v = uniformCell v ↔ v ≠ 0x7f := by
  have hle : v ≤ 0x7f ↔ v.toNat ≤ 0x7f := Iff.rfl
  have hle' : v ≤ 0x7e ↔ v.toNat ≤ 0x7e := Iff.rfl
  have hge : 0x20 ≤ v ↔ 0x20 ≤ v.toNat := Iff.rfl
  have heq : v = 0x7f ↔ v.toNat = 0x7f := UInt8.toNat_inj.symm
  simp only [lastCell, uniformCell, hle, hle', hge, Ne, heq]
  by_cases h : v.toNat = 0x7f
  · rw [if_pos ⟨by omega,by omega⟩, if_neg (by omega), h]
    decide
  · have hsame : (0x20 ≤ v.toNat ∧ v.toNat ≤ 0x7f) ↔ (0x20 ≤ v.toNat ∧ v.toNat ≤ 0x7e) := by
      omega
    simp only [hsame, h, not_false_eq_true]

theorem linePerRow_iff (bytes : List UInt8) (out : List Char) (h : hexdumpBytes bytes = .ok out) :
    LinePerRow bytes out ↔ bytes = [] := by
  constructor
  · rintro ⟨lines,hlen,-,rfl⟩
    have hnone := hexdump_newline bytes _ h
    have hlines : lines = [] := by
      cases lines with
      | nil => rfl
      | cons l lines => simp at hnone
    rw [hlines, List.length_nil] at hlen
    exact List.eq_nil_of_length_eq_zero (by omega)
  · rintro rfl
    cases h
    exact ⟨[],rfl,by simp,rfl⟩

theorem cellsUniform_iff (bytes : List UInt8) (hbound : bytes.length < 2^31) :
    (∃ out, hexdumpBytes bytes = .ok out ∧ CellsUniform bytes out) ↔
      0x7f ∉ bytes.drop (16*(bytes.length/16)) := by
  have hout := hexdumpBytes_rows bytes hbound
  have hfilter := filter_newline _ (hexdump_newline bytes _ hout)
  constructor
  · rintro ⟨out,hrun,hcells⟩ hmem
    rw [hout] at hrun
    cases hrun
    obtain ⟨i,hi⟩ := List.getElem?_of_mem hmem
    rw [List.getElem?_drop] at hi
    have hlt := (List.getElem?_eq_some_iff.mp hi).1
    have hchunk := chunk_length bytes ((16*(bytes.length/16)+i)/16)
    have hcell := hcells _ _ hi
    rw [hfilter, shown_at bytes _ _ hi, shownIn, if_neg (by omega)] at hcell
    exact (lastCell_uniform_iff 0x7f).mp (Option.some.inj hcell) rfl
  · intro hmem
    refine ⟨_,hout,?_⟩
    intro j v hv
    have hlt := (List.getElem?_eq_some_iff.mp hv).1
    have hchunk := chunk_length bytes (j/16)
    rw [hfilter, shown_at bytes j v hv, shownIn]
    by_cases hfull : (chunk bytes (j/16)).length = 16
    · rw [if_pos hfull]
      rfl
    · have hne : v ≠ 0x7f := by
        rintro rfl
        apply hmem
        have hplace : 16*(bytes.length/16)+(j-16*(bytes.length/16)) = j := by omega
        apply List.mem_of_getElem? (i := j-16*(bytes.length/16))
        rw [List.getElem?_drop, hplace, hv]
      rw [if_neg hfull, (lastCell_uniform_iff v).mpr hne]

/-- A dump has a line for each row and the same characters in all rows only if
it is empty. The characters alone agree exactly if the row behind the loop has
no byte `0x7f`. -/
theorem layout_iff (bytes : List UInt8) :
    ((∃ out, hexdumpBytes bytes = .ok out ∧ LinePerRow bytes out ∧ CellsUniform bytes out) ↔
      bytes = []) ∧
    (bytes.length < 2^31 → ((∃ out, hexdumpBytes bytes = .ok out ∧ CellsUniform bytes out) ↔
      0x7f ∉ bytes.drop (16*(bytes.length/16)))) := by
  refine ⟨?_,cellsUniform_iff bytes⟩
  constructor
  · rintro ⟨out,hout,hlines,-⟩
    exact (linePerRow_iff bytes out hout).mp hlines
  · rintro rfl
    refine ⟨[],rfl,(linePerRow_iff [] [] rfl).mpr rfl,?_⟩
    intro j v hv
    simp at hv

theorem layout_iff_empty :
    (∃ out, hexdumpBytes [] = .ok out ∧ LinePerRow [] out ∧ CellsUniform [] out) ∧
      ∃ out, hexdumpBytes [0x41] = .ok out ∧ CellsUniform [0x41] out :=
  ⟨(layout_iff []).1.mpr rfl,((layout_iff [0x41]).2 (by decide)).mpr (by decide)⟩

/-- One byte, without a newline and with the byte itself for its character. -/
theorem delete_shown : hexdumpBytes [0x7f] = .ok
    ("00000000: 7F                                              |".toList++
      [Char.ofNat 0x7f,'|']) ∧
    ¬ ∃ out, hexdumpBytes [0x7f] = .ok out ∧ LinePerRow [0x7f] out ∧ CellsUniform [0x7f] out := by
  refine ⟨by decide,?_⟩
  rintro ⟨out,hout,hlines,-⟩
  have h := (linePerRow_iff _ out hout).mp hlines
  cases h

end Wasabi.Print.HexdumpLines
