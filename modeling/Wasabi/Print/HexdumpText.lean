import Wasabi.Print.Hexdump

/-!
# What a hex dump shows

Every row before the last one has 76 characters, so the cells are found at
fixed places and give back the bytes. The rows are not separated by newlines,
and the last row shows one byte value differently.
-/

set_option autoImplicit false

namespace Wasabi.Print.HexdumpText
open Wasabi.Rust Wasabi.HexText Wasabi.Print.Hexdump

/-- Up to `n` cells of three characters; the first blank cell ends them. -/
def readCells : ℕ → List Char → List UInt8
  | n+1, a::b::_::rest =>
    match toDigit a, toDigit b with
    | some x, some y => UInt8.ofNat (16*x+y)::readCells n rest
    | _, _ => []
  | _, _ => []

/-- Rows of 76 characters with their cells behind the offset. -/
def readRows : ℕ → List Char → List UInt8
  | 0, _ => []
  | n+1, text => if text = [] then [] else readCells 16 (text.drop 10)++readRows n (text.drop 76)

/-- The bytes of a printed dump, whatever its line breaks. -/
def decode (text : List Char) : List UInt8 :=
  readRows text.length (text.filter (· ≠ '\n'))

theorem readCells_cell (n : ℕ) (v : UInt8) (rest : List Char) :
    readCells (n+1) (cell v++rest) = v::readCells n rest := by
  have hlt : v.toNat < 256 := v.toNat_lt
  have hcell : cell v = [hexDigit true (v.toNat/16%16),hexDigit true (v.toNat%16),' '] := rfl
  rw [hcell]
  simp only [List.cons_append, List.nil_append, readCells,
    toDigit_hexDigit true _ (Nat.mod_lt (v.toNat/16) (by decide : 16 > 0)),
    toDigit_hexDigit true _ (Nat.mod_lt v.toNat (by decide : 16 > 0))]
  have hsum : 16*(v.toNat/16%16)+v.toNat%16 = v.toNat := by omega
  rw [hsum, UInt8.ofNat_toNat]

theorem readCells_append (row : List UInt8) (n : ℕ) (rest : List Char) :
    readCells (row.length+n) (row.flatMap cell++rest) = row++readCells n rest := by
  induction row with
  | nil => simp
  | cons v row ih =>
    have hlen : (v::row).length+n = row.length+n+1 := by
      rw [List.length_cons]
      omega
    rw [hlen, List.flatMap_cons, List.append_assoc, readCells_cell, ih, List.cons_append]

/-- Blank cells end a row. -/
theorem readCells_blank (n : ℕ) (rest : List Char) :
    readCells n ((List.replicate n [' ',' ',' ']).flatten++rest) = [] := by
  cases n with
  | zero => rfl
  | succ n =>
    rw [List.replicate_succ, List.flatten_cons, List.append_assoc]
    rfl

/-- The characters of a row begin in column 59. -/
theorem cells_length (offset : ℕ) (row : List UInt8) (h : row.length ≤ 16) :
    (digits 8 offset++[':',' ']++row.flatMap cell++
      (List.replicate (16-row.length) [' ',' ',' ']).flatten++['|']).length = 59 := by
  have hcells : (row.flatMap cell).length = 3*row.length := by
    rw [List.length_flatMap]
    simp [cell, mul_comm]
  simp only [List.length_append, digitsOf_length, hcells, List.length_flatten, List.map_replicate,
    List.sum_replicate, List.length_cons, List.length_nil, smul_eq_mul]
  omega

theorem layout_length (shown : UInt8 → Char) (offset : ℕ) (row : List UInt8)
    (h : row.length ≤ 16) : (layout shown offset row).length = 60+row.length := by
  rw [layout, List.length_append, List.length_append, cells_length offset row h, List.length_map,
    List.length_singleton]
  omega

/-- The cells of a row give back its bytes, whatever follows the row. -/
theorem readCells_layout (shown : UInt8 → Char) (offset : ℕ) (row : List UInt8)
    (h : row.length ≤ 16) (rest : List Char) :
    readCells 16 ((layout shown offset row++rest).drop 10) = row := by
  have hdrop : (layout shown offset row++rest).drop 10 = row.flatMap cell++
      ((List.replicate (16-row.length) [' ',' ',' ']).flatten++
        (['|']++row.map shown++['|']++rest)) := by
    rw [layout]
    simp only [List.append_assoc]
    rw [← List.append_assoc, List.drop_left' (by simp)]
  have hsplit : 16 = row.length+(16-row.length) := by omega
  conv_lhs => rw [hsplit]
  rw [hdrop, readCells_append, readCells_blank, List.append_nil]

/-- Row `k` of a dump that starts at row `base`. -/
def rowFrom (base : ℕ) (bytes : List UInt8) (k : ℕ) : List Char :=
  layout (shownIn (chunk bytes k)) (16*(base+k)) (chunk bytes k)

theorem row_eq (bytes : List UInt8) : row bytes = rowFrom 0 bytes := by
  funext k
  rw [row, rowFrom, Nat.zero_add]

theorem rowFrom_succ (base : ℕ) (bytes : List UInt8) (k : ℕ) :
    rowFrom base bytes (k+1) = rowFrom (base+1) (bytes.drop 16) k := by
  have hchunk : chunk bytes (k+1) = chunk (bytes.drop 16) k := by
    rw [chunk, chunk, List.drop_drop]
    congr 2
    omega
  rw [rowFrom, rowFrom, hchunk]
  congr 1
  omega

/-- The rows behind the first one are the rows of the bytes behind it. -/
theorem rows_cons (base : ℕ) (bytes : List UInt8) (rows : ℕ) :
    (List.range (rows+1)).flatMap (rowFrom base bytes) = rowFrom base bytes 0++
      (List.range rows).flatMap (rowFrom (base+1) (bytes.drop 16)) := by
  rw [List.range_succ_eq_map, List.flatMap_cons, List.flatMap_map]
  congr 2
  funext k
  exact rowFrom_succ base bytes k

theorem rows_le (base : ℕ) (bytes : List UInt8) (rows : ℕ) :
    rows ≤ ((List.range rows).flatMap (rowFrom base bytes)).length := by
  have hone : ∀ n ∈ (List.range rows).map (fun k => (rowFrom base bytes k).length), 1 ≤ n := by
    intro n hn
    obtain ⟨k,-,rfl⟩ := List.mem_map.mp hn
    rw [rowFrom, layout_length _ _ _ (by rw [chunk_length]; omega)]
    omega
  have h := List.length_le_sum_of_one_le _ hone
  rwa [List.length_map, List.length_range, ← List.length_flatMap] at h

/-- By induction on the number of rows, each of which is cut off the front. -/
theorem readRows_rows (rows : ℕ) (base : ℕ) (bytes : List UInt8) (fuel : ℕ)
    (hrows : rows = (bytes.length+15)/16) (hfuel : rows ≤ fuel) :
    readRows fuel ((List.range rows).flatMap (rowFrom base bytes)) = bytes := by
  induction rows generalizing base bytes fuel with
  | zero =>
    have hnil : bytes = [] := List.eq_nil_of_length_eq_zero (by omega)
    cases fuel with
    | zero => exact hnil.symm
    | succ fuel => exact hnil.symm
  | succ rows ih =>
    obtain ⟨fuel,rfl⟩ : ∃ m, fuel = m+1 := ⟨fuel-1,by omega⟩
    have hlen := chunk_length bytes 0
    have hchunk : chunk bytes 0 = bytes.take 16 := rfl
    have hfirst : (rowFrom base bytes 0).length = 60+(chunk bytes 0).length :=
      layout_length _ _ _ (by omega)
    have hne : rowFrom base bytes 0++
        (List.range rows).flatMap (rowFrom (base+1) (bytes.drop 16)) ≠ [] := by
      intro h
      have h0 := congrArg List.length h
      rw [List.length_append, hfirst, List.length_nil] at h0
      omega
    have hrest : readRows fuel ((rowFrom base bytes 0++(List.range rows).flatMap
        (rowFrom (base+1) (bytes.drop 16))).drop 76) = bytes.drop 16 := by
      have hrows' : rows = ((bytes.drop 16).length+15)/16 := by
        rw [List.length_drop]
        omega
      by_cases hfull : 16 ≤ bytes.length
      · rw [List.drop_left' (by omega)]
        exact ih (base+1) (bytes.drop 16) fuel hrows' (by omega)
      · have hzero : rows = 0 := by omega
        subst hzero
        rw [List.drop_eq_nil_of_le (by simp; omega), List.drop_eq_nil_of_le (by omega)]
        cases fuel <;> rfl
    rw [rows_cons, readRows, if_neg hne, hrest, rowFrom, readCells_layout _ _ _ (by omega), hchunk,
      List.take_append_drop]

theorem byteChar_toNat (c : UInt8) : (Char.ofNat c.toNat).toNat = c.toNat := by
  have hlt := c.toNat_lt
  have hvalid : c.toNat.isValidChar := Or.inl (by omega)
  rw [Char.ofNat, dif_pos hvalid]
  rfl

/-- A shown byte is not a newline. -/
theorem byteChar_ne (c : UInt8) (h : 0x20 ≤ c) : Char.ofNat c.toNat ≠ '\n' := by
  have h0 : 0x20 ≤ c.toNat := h
  intro heq
  have hval := congrArg Char.toNat heq
  have hnewline : '\n'.toNat = 10 := rfl
  rw [byteChar_toNat] at hval
  omega

theorem shown_ne (c hi : UInt8) :
    (if 0x20 ≤ c ∧ c ≤ hi then Char.ofNat c.toNat else '.') ≠ '\n' := by
  split_ifs with h
  · exact byteChar_ne c h.1
  · decide

theorem fullCell_ne (c : UInt8) : fullCell c ≠ '\n' := shown_ne c 0x7e

theorem lastCell_ne (c : UInt8) : lastCell c ≠ '\n' := shown_ne c 0x7f

theorem map_notMem (shown : UInt8 → Char) (h : ∀ c, shown c ≠ '\n') (row : List UInt8) :
    '\n' ∉ row.map shown := by
  rw [List.mem_map]
  rintro ⟨c,-,hc⟩
  exact h c hc

theorem dumpByte_newline (d d' : Dump) (v : UInt8) (h : dumpByte d v = .ok d')
    (hd : '\n' ∉ d.out) : '\n' ∉ d'.out := by
  have hdigits (width n : ℕ) : '\n' ∉ digits width n :=
    digitsOf_notMem true width n '\n' (by decide)
  have hout : '\n' ∉ (if d.i = 0 then d.out++offsetText d.offset++[':',' '] else d.out)++
      cell v := by
    split_ifs
    · simp [hd, offsetText, cell, hdigits]
    · simp [hd, cell, hdigits]
  obtain ⟨ascii,-,h⟩ := bind_ok _ _ _ h
  obtain ⟨i,-,h⟩ := bind_ok _ _ _ h
  by_cases hi : i = 16
  · rw [if_pos hi] at h
    obtain ⟨offset,-,h⟩ := bind_ok _ _ _ h
    cases h
    have hcells := map_notMem fullCell fullCell_ne (List.ofFn ascii)
    simp only [List.mem_append, not_or] at hout ⊢
    exact ⟨⟨⟨hout,by decide⟩,hcells⟩,by decide⟩
  · rw [if_neg hi] at h
    cases h
    exact hout

theorem loop_newline (bytes : List UInt8) (d d' : Dump)
    (h : bytes.foldlM dumpByte d = .ok d') (hd : '\n' ∉ d.out) : '\n' ∉ d'.out := by
  induction bytes generalizing d with
  | nil =>
    cases h
    exact hd
  | cons v bytes ih =>
    rw [List.foldlM_cons] at h
    obtain ⟨d1,h1,h⟩ := bind_ok _ _ _ h
    exact ih d1 h (dumpByte_newline d d1 v h1 hd)

/-- No dump contains a newline. -/
theorem hexdump_newline (bytes : List UInt8) (out : List Char)
    (h : hexdumpBytes bytes = .ok out) : '\n' ∉ out := by
  obtain ⟨d,hloop,hlast⟩ := bind_ok _ _ _ h
  have hd := loop_newline bytes start d hloop List.not_mem_nil
  cases hlast
  unfold lastRow
  split_ifs
  · simp only [List.mem_append, not_or, List.mem_flatMap, not_exists, not_and]
    refine ⟨⟨⟨⟨hd,?_⟩,by decide⟩,map_notMem lastCell lastCell_ne _⟩,by decide⟩
    intro _ _
    decide
  · exact hd

theorem filter_newline (out : List Char) (h : '\n' ∉ out) : out.filter (· ≠ '\n') = out := by
  rw [List.filter_eq_self]
  intro c hc
  exact decide_eq_true (fun heq => h (heq ▸ hc))

/-- The printed rows, and what can be read back from them. -/
theorem hexdump_determines (bytes : List UInt8) (hbound : bytes.length < 2^31) :
    ∃ out, hexdumpBytes bytes = .ok out ∧
      out.filter (· ≠ '\n') = (List.range ((bytes.length+15)/16)).flatMap (fun k =>
        digits 8 (16*k)++[':',' ']++(chunk bytes k).flatMap (fun v => digits 2 v.toNat++[' '])++
          (List.replicate (16-(chunk bytes k).length) [' ',' ',' ']).flatten++
          ['|']++(chunk bytes k).map (shownIn (chunk bytes k))++['|']) ∧
      decode out = bytes ∧
      ∀ bytes' : List UInt8, bytes'.length < 2^31 →
        hexdumpBytes bytes' = .ok out → bytes' = bytes := by
  have hdecode : ∀ (bs : List UInt8) (out : List Char), bs.length < 2^31 →
      hexdumpBytes bs = .ok out → decode out = bs := by
    intro bs out hb hout
    have hfilter := filter_newline out (hexdump_newline bs out hout)
    rw [hexdumpBytes_rows bs hb, row_eq] at hout
    cases hout
    rw [decode, hfilter]
    exact readRows_rows _ 0 bs _ rfl (rows_le 0 bs _)
  have hout := hexdumpBytes_rows bytes hbound
  refine ⟨_,hout,?_,hdecode bytes _ hbound hout,?_⟩
  · exact filter_newline _ (hexdump_newline bytes _ hout)
  · intro bytes' hb' hout'
    rw [← hdecode bytes' _ hb' hout', hdecode bytes _ hbound hout]

theorem hexdump_determines_short :
    ∃ out, hexdumpBytes [0x48,0x69] = .ok out ∧ decode out = [0x48,0x69] ∧
      ∀ bytes' : List UInt8, bytes'.length < 2^31 →
        hexdumpBytes bytes' = .ok out → bytes' = [0x48,0x69] := by
  obtain ⟨out,hout,-,hdecode,hunique⟩ := hexdump_determines [0x48,0x69] (by decide)
  exact ⟨out,hout,hdecode,hunique⟩

end Wasabi.Print.HexdumpText
