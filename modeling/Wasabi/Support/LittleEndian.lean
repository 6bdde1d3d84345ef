import Mathlib.Tactic

/-!
# Little-endian byte strings

Numbers as byte strings of a fixed width, least significant byte first.
-/

set_option autoImplicit false

namespace Wasabi.LittleEndian

def value : List UInt8 → ℕ
  | [] => 0
  | b::bs => b.toNat+256*value bs

def encode : ℕ → ℕ → List UInt8
  | 0, _ => []
  | width+1, x => UInt8.ofNat x :: encode width (x/256)

@[simp] theorem encode_length (width x : ℕ) : (encode width x).length = width := by
  induction width generalizing x with
  | zero => rfl
  | succ width ih => simp [encode, ih]

theorem value_encode (width x : ℕ) (hx : x < 256^width) : value (encode width x) = x := by
  induction width generalizing x with
  | zero => simp [encode, value] at *; omega
  | succ width ih =>
    have hd : x/256 < 256^width := by
      rw [pow_succ] at hx
      omega
    have hb : (UInt8.ofNat x).toNat = x%256 := by simp
    rw [encode, value, ih _ hd, hb]
    omega

theorem value_lt (bs : List UInt8) : value bs < 256^bs.length := by
  induction bs with
  | nil => simp [value]
  | cons b bs ih =>
    have hb := b.toNat_lt
    rw [value, List.length_cons, pow_succ]
    omega

theorem encode_value (bs : List UInt8) : encode bs.length (value bs) = bs := by
  induction bs with
  | nil => rfl
  | cons b bs ih =>
    have hb := b.toNat_lt
    have hlow : UInt8.ofNat (b.toNat+256*value bs) = b := by
      apply UInt8.toNat_inj.mp
      rw [UInt8.toNat_ofNat']
      omega
    have hhigh : (b.toNat+256*value bs)/256 = value bs := by omega
    rw [List.length_cons, encode, value, hlow, hhigh, ih]

end Wasabi.LittleEndian
