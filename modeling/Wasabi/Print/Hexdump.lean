import Wasabi.Rust
import Wasabi.Support.HexText

/-!
# The hex dump

The loop prints a byte at a time and keeps the bytes of the current row in a
scratch array, which it prints at the end of the row. A row that is not full
is closed behind the loop, by code of its own.
-/

set_option autoImplicit false

namespace Wasabi.Print.Hexdump
open Wasabi.Rust Wasabi.HexText

/-- The variables of the loop and the characters printed so far. -/
structure Dump where
  i : ℕ
  ascii : Fin 16 → UInt8
  offset : ℤ
  out : List Char

def start : Dump := ⟨0,fun _ => 0x8,0,[]⟩

/-- `ascii[i] = v`. -/
def setAscii (ascii : Fin 16 → UInt8) (i : ℕ) (v : UInt8) : Eval (Fin 16 → UInt8) :=
  if h : i < 16 then .ok (Function.update ascii ⟨i,h⟩ v)
  else .error (.panic "index out of bounds")

/-- `{offset:08X}` of an `i32`. -/
def offsetText (offset : ℤ) : List Char := digits 8 (offset%2^32).toNat

/-- `{:02X} ` of a byte. -/
def cell (v : UInt8) : List Char := digits 2 v.toNat++[' ']

/-- The arms of the `match` in the loop. -/
def fullCell (c : UInt8) : Char := if 0x20 ≤ c ∧ c ≤ 0x7e then Char.ofNat c.toNat else '.'

/-- The arms of the `if` behind the loop. -/
def lastCell (c : UInt8) : Char := if 0x20 ≤ c ∧ c ≤ 0x7f then Char.ofNat c.toNat else '.'

/-- A turn of the loop. -/
def dumpByte (d : Dump) (v : UInt8) : Eval Dump := do
  let out := if d.i = 0 then d.out++offsetText d.offset++[':',' '] else d.out
  let out := out++cell v
  let ascii ← setAscii d.ascii d.i v
  let i ← checkedAdd d.i 1
  if i = 16 then do
    let out := out++['|']++(List.ofFn ascii).map fullCell++['|']
    let offset ← addI32 d.offset 16
    pure ⟨0,ascii,offset,out⟩
  else pure ⟨i,ascii,d.offset,out⟩

/-- The row behind the loop; three blanks stand for each missing byte. -/
def lastRow (d : Dump) : List Char :=
  if d.i ≠ 0 then
    d.out++(List.range' d.i (16-d.i)).flatMap (fun _ => [' ',' ',' '])++['|']++
      ((List.ofFn d.ascii).take d.i).map lastCell++['|']
  else d.out

def hexdumpBytes (bytes : List UInt8) : Eval (List Char) := do
  let d ← bytes.foldlM dumpByte start
  pure (lastRow d)

/-- The bytes of row `k`. -/
def chunk (bytes : List UInt8) (k : ℕ) : List UInt8 := (bytes.drop (16*k)).take 16

/-- The row at an offset, with the character of each byte. -/
def layout (shown : UInt8 → Char) (offset : ℕ) (row : List UInt8) : List Char :=
  digits 8 offset++[':',' ']++row.flatMap cell++
    (List.replicate (16-row.length) [' ',' ',' ']).flatten++['|']++row.map shown++['|']

/-- Full rows and the last row differ in the characters of their bytes. -/
def shownIn (row : List UInt8) : UInt8 → Char := if row.length = 16 then fullCell else lastCell

def row (bytes : List UInt8) (k : ℕ) : List Char :=
  layout (shownIn (chunk bytes k)) (16*k) (chunk bytes k)

/-- A row while it is printed, behind the rows before it. -/
def opened (bytes : List UInt8) (k r : ℕ) : List Char :=
  (List.range k).flatMap (row bytes)++digits 8 (16*k)++[':',' ']++
    ((chunk bytes k).take r).flatMap cell

/-- The state after `n` bytes. -/
structure Printed (bytes : List UInt8) (n : ℕ) (d : Dump) : Prop where
  i : d.i = n%16
  offset : d.offset = (16*(n/16) : ℕ)
  ascii : ∀ j : Fin 16, j.val < n%16 → (chunk bytes (n/16))[j.val]? = some (d.ascii j)
  out : d.out = if n%16 = 0 then (List.range (n/16)).flatMap (row bytes)
    else opened bytes (n/16) (n%16)

theorem printed_start (bytes : List UInt8) : Printed bytes 0 start :=
  ⟨rfl,rfl,fun _ hj => absurd hj (by simp),rfl⟩

theorem offsetText_eq (n : ℕ) (h : n < 2^32) : offsetText (n : ℤ) = digits 8 n := by
  rw [offsetText, Int.emod_eq_of_lt (by omega) (by exact_mod_cast h), Int.toNat_natCast]

theorem chunk_getElem (bytes : List UInt8) (k j : ℕ) (hj : j < 16) :
    (chunk bytes k)[j]? = bytes[16*k+j]? := by
  rw [chunk, List.getElem?_take_of_lt hj, List.getElem?_drop]

theorem chunk_length (bytes : List UInt8) (k : ℕ) :
    (chunk bytes k).length = min 16 (bytes.length-16*k) := by
  rw [chunk, List.length_take, List.length_drop]

theorem opened_snoc (bytes : List UInt8) (k r : ℕ) (v : UInt8)
    (h : (chunk bytes k)[r]? = some v) : opened bytes k r++cell v = opened bytes k (r+1) := by
  rw [opened, opened, List.take_add_one, h, List.flatMap_append, List.append_assoc]
  simp

/-- A full scratch array is the row. -/
theorem ascii_full (bytes : List UInt8) (k : ℕ) (ascii : Fin 16 → UInt8)
    (h : ∀ j : Fin 16, (chunk bytes k)[j.val]? = some (ascii j)) :
    List.ofFn ascii = chunk bytes k := by
  apply List.ext_getElem?
  intro j
  by_cases hj : j < 16
  · rw [h ⟨j,hj⟩, List.getElem?_ofFn]
    simp [hj]
  · rw [List.getElem?_eq_none (by simp; omega), List.getElem?_eq_none]
    rw [chunk_length]
    omega

theorem row_full (bytes : List UInt8) (k : ℕ) (h : 16*k+16 ≤ bytes.length) :
    (List.range (k+1)).flatMap (row bytes) =
      opened bytes k 16++['|']++(chunk bytes k).map fullCell++['|'] := by
  have hlen : (chunk bytes k).length = 16 := by
    rw [chunk_length]
    omega
  have htake : (chunk bytes k).take 16 = chunk bytes k := List.take_of_length_le hlen.le
  rw [List.range_succ, List.flatMap_append, List.flatMap_singleton, row, layout, shownIn,
    if_pos hlen, hlen, opened, htake]
  simp

/-- The offset is printed in front of the first byte of a row. -/
theorem printed_opened (bytes : List UInt8) (hbound : bytes.length < 2^31) (n : ℕ)
    (hn : n < bytes.length) (d : Dump) (hd : Printed bytes n d) :
    (if d.i = 0 then d.out++offsetText d.offset++[':',' '] else d.out) =
      opened bytes (n/16) (n%16) := by
  rw [hd.i, hd.out, hd.offset, offsetText_eq _ (by omega)]
  split_ifs with h0
  · rw [h0]
    simp [opened]
  · rfl

/-- Storing a byte extends the part of the scratch array that is in use. -/
theorem ascii_update (bytes : List UInt8) (n : ℕ) (d : Dump) (hd : Printed bytes n d)
    (r : Fin 16) (hr : r.val = n%16) (v : UInt8) (hv : (chunk bytes (n/16))[n%16]? = some v)
    (j : Fin 16) (hj : j.val < n%16+1) :
    (chunk bytes (n/16))[j.val]? = some (Function.update d.ascii r v j) := by
  by_cases hjr : j = r
  · rw [hjr, Function.update_self, hr, hv]
  · have hne : j.val ≠ n%16 := fun h => hjr (Fin.ext (h.trans hr.symm))
    rw [Function.update_of_ne hjr, hd.ascii j (by omega)]

/-- A turn of the loop for byte `n`. -/
theorem dumpByte_printed (bytes : List UInt8) (hbound : bytes.length < 2^31) (n : ℕ) (d : Dump)
    (hd : Printed bytes n d) (v : UInt8) (hv : bytes[n]? = some v) :
    ∃ d', dumpByte d v = .ok d' ∧ Printed bytes (n+1) d' := by
  have hlt : n < bytes.length := (List.getElem?_eq_some_iff.mp hv).1
  have hr : n%16 < 16 := Nat.mod_lt _ (by decide)
  have hn : 16*(n/16)+n%16 = n := Nat.div_add_mod n 16
  have hchunk : (chunk bytes (n/16))[n%16]? = some v := by rw [chunk_getElem _ _ _ hr, hn, hv]
  have hopen := printed_opened bytes hbound n hlt d hd
  have hset : setAscii d.ascii d.i v = .ok (Function.update d.ascii ⟨n%16,hr⟩ v) := by
    simp only [setAscii, hd.i, dif_pos hr]
  have hascii := ascii_update bytes n d hd ⟨n%16,hr⟩ rfl v hchunk
  rw [dumpByte, hopen, hset, ok_bind, hd.i, checkedAdd_ok _ _ (by omega), ok_bind,
    opened_snoc _ _ _ _ hchunk]
  by_cases hlast : n%16+1 = 16
  · have hdiv : (n+1)/16 = n/16+1 := by omega
    have hmod : (n+1)%16 = 0 := by omega
    have hfull := ascii_full bytes (n/16) _ (fun j => hascii j (by omega))
    rw [if_pos hlast, hd.offset, addI32_ok _ _ ⟨by omega,by omega⟩, ok_bind, hfull, hlast]
    refine ⟨_,rfl,hmod.symm,?_,?_,?_⟩
    · rw [hdiv]
      push_cast
      omega
    · intro j hj
      rw [hmod] at hj
      exact absurd hj (Nat.not_lt_zero _)
    · rw [hmod, hdiv, if_pos rfl, row_full bytes _ (by omega)]
  · have hdiv : (n+1)/16 = n/16 := by omega
    have hmod : (n+1)%16 = n%16+1 := by omega
    rw [if_neg hlast]
    refine ⟨_,rfl,hmod.symm,?_,?_,?_⟩
    · rw [hdiv]
      exact hd.offset
    · rw [hdiv, hmod]
      exact hascii
    · rw [hmod, hdiv, if_neg (by omega)]

/-- The loop, by induction on the number of bytes it has seen. -/
theorem loop_printed (bytes : List UInt8) (hbound : bytes.length < 2^31) (n : ℕ)
    (hn : n ≤ bytes.length) :
    ∃ d, (bytes.take n).foldlM dumpByte start = .ok d ∧ Printed bytes n d := by
  induction n with
  | zero => exact ⟨start,rfl,printed_start bytes⟩
  | succ n ih =>
    obtain ⟨d,hrun,hd⟩ := ih (by omega)
    have hv : bytes[n]? = some bytes[n] := List.getElem?_eq_getElem (by omega)
    obtain ⟨d',hrun',hd'⟩ := dumpByte_printed bytes hbound n d hd _ hv
    refine ⟨d',?_,hd'⟩
    rw [List.take_add_one, hv, List.foldlM_append, hrun, ok_bind]
    simp [hrun']

/-- The filled part of the scratch array is the row behind the loop. -/
theorem ascii_part (bytes : List UInt8) (d : Dump) (hd : Printed bytes bytes.length d) :
    (List.ofFn d.ascii).take d.i = chunk bytes (bytes.length/16) := by
  have hlen := chunk_length bytes (bytes.length/16)
  rw [hd.i]
  apply List.ext_getElem?
  intro j
  by_cases hj : j < bytes.length%16
  · have hj16 : j < 16 := by omega
    rw [List.getElem?_take_of_lt hj, hd.ascii ⟨j,hj16⟩ hj, List.getElem?_ofFn, dif_pos hj16]
  · rw [List.getElem?_eq_none (by rw [List.length_take]; omega),
      List.getElem?_eq_none (by omega)]

theorem lastRow_printed (bytes : List UInt8) (d : Dump) (hd : Printed bytes bytes.length d) :
    lastRow d = (List.range ((bytes.length+15)/16)).flatMap (row bytes) := by
  have hlen := chunk_length bytes (bytes.length/16)
  by_cases h0 : bytes.length%16 = 0
  · have hdiv : (bytes.length+15)/16 = bytes.length/16 := by omega
    rw [lastRow, if_neg (by rw [hd.i]; omega), hd.out, if_pos h0, hdiv]
  · have hdiv : (bytes.length+15)/16 = bytes.length/16+1 := by omega
    have hrow : (chunk bytes (bytes.length/16)).length = bytes.length%16 := by omega
    have htake : (chunk bytes (bytes.length/16)).take (bytes.length%16) =
        chunk bytes (bytes.length/16) := List.take_of_length_le hrow.le
    have hpad : (List.range' d.i (16-d.i)).flatMap (fun _ => [' ',' ',' ']) =
        (List.replicate (16-bytes.length%16) [' ',' ',' ']).flatten := by
      rw [List.flatMap_def, List.map_const', List.length_range', hd.i]
    rw [lastRow, if_pos (by rw [hd.i]; exact h0), ascii_part bytes d hd, hpad, hd.out, if_neg h0,
      hdiv, List.range_succ, List.flatMap_append, List.flatMap_singleton, row, layout, shownIn,
      if_neg (by omega), hrow, opened, htake]
    simp

/-- The dump is a sequence of rows, the last of which may be short. -/
theorem hexdumpBytes_rows (bytes : List UInt8) (hbound : bytes.length < 2^31) :
    hexdumpBytes bytes = .ok ((List.range ((bytes.length+15)/16)).flatMap (row bytes)) := by
  obtain ⟨d,hrun,hd⟩ := loop_printed bytes hbound bytes.length le_rfl
  rw [List.take_length] at hrun
  rw [hexdumpBytes, hrun, ok_bind, lastRow_printed bytes d hd]
  rfl

end Wasabi.Print.Hexdump
