import Wasabi.Support.LittleEndian

/-!
# Packed records

A packed record is the string of its fields, each little-endian in its width.
Hardware reads a field by offset and width, and may read two neighbouring
fields as one or a field in two parts.
-/

set_option autoImplicit false

namespace Wasabi.PackedRecord
open Wasabi.LittleEndian

/-- Fields given by width and value. -/
abbrev Fields := List (ℕ × ℕ)

def pack (fields : Fields) : List UInt8 := fields.flatMap (fun f => encode f.1 f.2)

def width (fields : Fields) : ℕ := (fields.map Prod.fst).sum

/-- The number in `n` bytes from an offset on. -/
def field (bytes : List UInt8) (offset n : ℕ) : ℕ := value ((bytes.drop offset).take n)

theorem width_append (fs gs : Fields) : width (fs++gs) = width fs+width gs := by
  rw [width, List.map_append, List.sum_append, width, width]

theorem pack_append (fs gs : Fields) : pack (fs++gs) = pack fs++pack gs := List.flatMap_append

theorem pack_cons (f : ℕ × ℕ) (fs : Fields) : pack (f::fs) = encode f.1 f.2++pack fs := rfl

@[simp] theorem pack_length (fields : Fields) : (pack fields).length = width fields := by
  induction fields with
  | nil => rfl
  | cons f fs ih => rw [pack_cons, List.length_append, encode_length, ih]; rfl

theorem field_append (pre bytes : List UInt8) (offset n : ℕ) (h : pre.length = offset) :
    field (pre++bytes) offset n = field bytes 0 n := by
  rw [field, ← h, List.drop_left, field, List.drop_zero]

theorem field_encode (w x : ℕ) (rest : List UInt8) (hx : x < 256^w) :
    field (encode w x++rest) 0 w = x := by
  have h : (encode w x++rest).take w = encode w x := by
    rw [List.take_append_of_le_length (by rw [encode_length]),
      List.take_of_length_le (by rw [encode_length])]
  rw [field, List.drop_zero, h, value_encode w x hx]

/-- A field is read at the width of the fields before it. -/
theorem field_pack (fields : Fields) (pre post : Fields) (w x : ℕ)
    (h : fields = pre++(w,x)::post) (hx : x < 256^w) : field (pack fields) (width pre) w = x := by
  rw [h, pack_append, field_append _ _ _ _ (pack_length pre), pack_cons, field_encode w x _ hx]

theorem value_append (bs cs : List UInt8) :
    value (bs++cs) = value bs+256^bs.length*value cs := by
  induction bs with
  | nil => simp [value]
  | cons b bs ih =>
    rw [List.cons_append, value, value, ih, List.length_cons, pow_succ]
    ring

/-- A wider read is put together from two. -/
theorem field_split (bytes : List UInt8) (offset m n : ℕ) (h : offset+m ≤ bytes.length) :
    field bytes offset (m+n) = field bytes offset m+256^m*field bytes (offset+m) n := by
  have hlen : ((bytes.drop offset).take m).length = m := by
    rw [List.length_take, List.length_drop]
    omega
  rw [field, List.take_add, value_append, hlen, List.drop_drop]
  rfl

/-- The `i`-th of equally long records. -/
theorem record_slice {β : Type*} (f : β → List UInt8) (w : ℕ) (hf : ∀ b, (f b).length = w)
    (records : List β) (i : ℕ) (h : i < records.length) :
    ((records.flatMap f).drop (w*i)).take w = f records[i] := by
  induction records generalizing i with
  | nil => cases h
  | cons b rest ih =>
    rw [List.flatMap_cons]
    cases i with
    | zero =>
      rw [Nat.mul_zero, List.drop_zero, List.take_append_of_le_length (by rw [hf b]),
        List.take_of_length_le (by rw [hf b])]
      rfl
    | succ i =>
      have hdrop : (f b++rest.flatMap f).drop (w*(i+1)) = (rest.flatMap f).drop (w*i) := by
        rw [Nat.mul_succ, Nat.add_comm, ← List.drop_drop, List.drop_left' (hf b)]
      rw [hdrop, ih i (by simpa using h)]
      rfl

end Wasabi.PackedRecord
