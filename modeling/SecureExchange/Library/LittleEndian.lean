import Mathlib.Data.Nat.Digits.Defs

namespace LittleEndian

/-- The lowest `width` bytes of a natural number, least significant first. -/
def encode : (width n : Nat) → List UInt8
  | 0, _ => []
  | width + 1, n => UInt8.ofNat n :: encode width (n / 256)

/-- The number a byte string denotes with its least significant byte first. -/
def value (bytes : List UInt8) : Nat :=
  Nat.ofDigits 256 (bytes.map UInt8.toNat)

@[simp] theorem length_encode (width n : Nat) : (encode width n).length = width := by
  induction width generalizing n with
  | zero => rfl
  | succ width ih => rw [encode, List.length_cons, ih]

theorem value_cons (b : UInt8) (bytes : List UInt8) : value (b :: bytes) = b.toNat + 256 * value bytes := by
  rw [value, List.map_cons, Nat.ofDigits_cons, value]

theorem value_encode {width n : Nat} (bound : n < 256 ^ width) : value (encode width n) = n := by
  induction width generalizing n with
  | zero => exact (Nat.lt_one_iff.mp bound).symm
  | succ width ih =>
    have high : n / 256 < 256 ^ width := Nat.div_lt_of_lt_mul (by rwa [← pow_succ'])
    rw [encode, value_cons, ih high, UInt8.toNat_ofNat']
    exact Nat.mod_add_div n 256

theorem encode_value (bytes : List UInt8) : encode bytes.length (value bytes) = bytes := by
  induction bytes with
  | nil => rfl
  | cons b bytes ih =>
    have low : UInt8.ofNat (b.toNat + 256 * value bytes) = b := by
      apply UInt8.toNat_inj.mp
      rw [UInt8.toNat_ofNat', Nat.add_mul_mod_self_left]
      exact Nat.mod_eq_of_lt b.toNat_lt
    have high : (b.toNat + 256 * value bytes) / 256 = value bytes := by
      have small := b.toNat_lt
      omega
    rw [value_cons, List.length_cons, encode, low, high, ih]

end LittleEndian
