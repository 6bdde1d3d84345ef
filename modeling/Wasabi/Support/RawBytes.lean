import Wasabi.Support.ObjectMemory
import Wasabi.Support.LittleEndian

/-!
# Raw bytes and words in object memory

A byte of a stored object has no raw value, so reading bytes succeeds only
where raw bytes were written and no object has been stored over them since.
Words are eight bytes, least significant byte first.
-/

set_option autoImplicit false

namespace Wasabi.RawBytes
open Wasabi.ObjectMemory Wasabi.LittleEndian

variable {α : Type*}

def peek (m : Memory α) (a : ℕ) : Option UInt8 :=
  match m a with
  | .raw byte => some byte
  | .part _ _ => none

def peeks (m : Memory α) (a : ℕ) : ℕ → Option (List UInt8)
  | 0 => some []
  | n+1 => do
    let byte ← peek m a
    let bytes ← peeks m (a+1) n
    pure (byte::bytes)

/-- Write a string of raw bytes. -/
def pokes (a : ℕ) : List UInt8 → Memory α → Memory α
  | [], m => m
  | byte::bytes, m => pokes (a+1) bytes (poke a byte m)

def readWord (m : Memory α) (a : ℕ) : Option ℕ := (peeks m a 8).map value

def writeWord (a x : ℕ) (m : Memory α) : Memory α := pokes a (encode 8 x) m

theorem pokes_outside (a : ℕ) (bytes : List UInt8) (m : Memory α) (b : ℕ)
    (h : b < a ∨ a+bytes.length ≤ b) : pokes a bytes m b = m b := by
  induction bytes generalizing a m with
  | nil => rfl
  | cons byte bytes ih =>
    rw [List.length_cons] at h
    rw [pokes, ih (a+1) _ (by omega), poke_outside a byte m b (by omega)]

theorem peeks_congr (m m' : Memory α) (a n : ℕ) (h : ∀ b, a ≤ b → b < a+n → m' b = m b) :
    peeks m' a n = peeks m a n := by
  induction n generalizing a with
  | zero => rfl
  | succ n ih =>
    rw [peeks, peeks, ih (a+1) (fun b h1 h2 => h b (by omega) (by omega)), peek, peek,
      h a le_rfl (by omega)]

theorem peeks_length (m : Memory α) (a n : ℕ) (bytes : List UInt8)
    (h : peeks m a n = some bytes) : bytes.length = n := by
  induction n generalizing a bytes with
  | zero =>
    cases h
    rfl
  | succ n ih =>
    obtain ⟨byte,-,h⟩ := Option.bind_eq_some_iff.mp h
    obtain ⟨rest,hrest,h⟩ := Option.bind_eq_some_iff.mp h
    cases h
    rw [List.length_cons, ih _ _ hrest]

/-- What was written is read back. -/
theorem peeks_pokes (a : ℕ) (bytes : List UInt8) (m : Memory α) :
    peeks (pokes a bytes m) a bytes.length = some bytes := by
  induction bytes generalizing a m with
  | nil => rfl
  | cons byte bytes ih =>
    have hhead : peek (pokes (a+1) bytes (poke a byte m)) a = some byte := by
      rw [peek, pokes_outside _ _ _ _ (by omega), poke, if_pos rfl]
    rw [List.length_cons, pokes, peeks, hhead, ih]
    rfl

/-- A string of bytes is read as its two parts. -/
theorem peeks_append (m : Memory α) (a i n : ℕ) : peeks m a (i+n) =
    (peeks m a i).bind (fun front => (peeks m (a+i) n).map (front++·)) := by
  induction i generalizing a with
  | zero => simp [peeks]
  | succ i ih =>
    rw [Nat.succ_add, peeks, peeks, ih (a+1), show a+1+i = a+(i+1) by omega]
    cases peek m a with
    | none => rfl
    | some byte =>
      cases peeks m (a+1) i with
      | none => rfl
      | some front => cases peeks m (a+(i+1)) n <;> rfl

/-- Part of a string of bytes. -/
theorem peeks_slice (m : Memory α) (a len i n : ℕ) (bytes : List UInt8)
    (h : peeks m a len = some bytes) (hb : i+n ≤ len) :
    peeks m (a+i) n = some ((bytes.drop i).take n) := by
  rw [show len = i+(n+(len-i-n)) by omega, peeks_append] at h
  obtain ⟨front,hfront,h⟩ := Option.bind_eq_some_iff.mp h
  obtain ⟨rest,hrest,rfl⟩ := Option.map_eq_some_iff.mp h
  rw [peeks_append] at hrest
  obtain ⟨mid,hmid,hrest⟩ := Option.bind_eq_some_iff.mp hrest
  obtain ⟨back,-,rfl⟩ := Option.map_eq_some_iff.mp hrest
  rw [hmid, List.drop_append_of_le_length (by rw [peeks_length m a i front hfront]),
    List.drop_eq_nil_of_le (by rw [peeks_length m a i front hfront]), List.nil_append,
    List.take_append_of_le_length (by rw [peeks_length m _ n mid hmid]),
    List.take_of_length_le (by rw [peeks_length m _ n mid hmid])]

/-- Writing one of several bytes. -/
theorem peeks_poke (m : Memory α) (a n i : ℕ) (byte : UInt8) (bytes : List UInt8)
    (h : peeks m a n = some bytes) (hi : i < n) :
    peeks (poke (a+i) byte m) a n = some (bytes.set i byte) := by
  induction n generalizing a i bytes with
  | zero => omega
  | succ n ih =>
    obtain ⟨b,hb,h⟩ := Option.bind_eq_some_iff.mp h
    obtain ⟨rest,hrest,h⟩ := Option.bind_eq_some_iff.mp h
    cases h
    cases i with
    | zero =>
      have hhead : peek (poke (a+0) byte m) a = some byte := by
        rw [peek, Nat.add_zero, poke, if_pos rfl]
      have htail : peeks (poke (a+0) byte m) (a+1) n = peeks m (a+1) n :=
        peeks_congr _ _ _ _ (fun x h1 _ => poke_outside _ _ _ _ (by omega))
      rw [peeks, hhead, htail, hrest]
      rfl
    | succ i =>
      have hhead : peek (poke (a+(i+1)) byte m) a = some b := by
        rw [← hb, peek, peek, poke_outside _ _ _ _ (by omega)]
      rw [peeks, hhead, show a+(i+1) = a+1+i by omega, ih (a+1) i rest hrest (by omega)]
      rfl

theorem readWord_congr (m m' : Memory α) (a : ℕ) (h : ∀ b, a ≤ b → b < a+8 → m' b = m b) :
    readWord m' a = readWord m a := by
  rw [readWord, readWord, peeks_congr m m' a 8 h]

theorem readWord_writeWord (a x : ℕ) (m : Memory α) (hx : x < 2^64) :
    readWord (writeWord a x m) a = some x := by
  have h := peeks_pokes a (encode 8 x) m
  rw [encode_length] at h
  rw [readWord, writeWord, h, Option.map_some, value_encode 8 x hx]

theorem writeWord_outside (a x : ℕ) (m : Memory α) (b : ℕ) (h : b < a ∨ a+8 ≤ b) :
    writeWord a x m b = m b :=
  pokes_outside a _ m b (by rwa [encode_length])

theorem readWord_writeWord_other (a b x : ℕ) (m : Memory α) (h : b+8 ≤ a ∨ a+8 ≤ b) :
    readWord (writeWord a x m) b = readWord m b :=
  readWord_congr _ _ b (fun c _ _ => writeWord_outside a x m c (by omega))

/-- Memory that was zeroed holds zero words. -/
theorem readWord_zeroed (m : Memory α) (a len i : ℕ)
    (hz : peeks m a len = some (List.replicate len 0)) (h : i+8 ≤ len) :
    readWord m (a+i) = some 0 := by
  rw [readWord, peeks_slice m a len i 8 _ hz h, Option.map_some, List.drop_replicate,
    List.take_replicate, Nat.min_eq_left (by omega)]
  rfl

end Wasabi.RawBytes
