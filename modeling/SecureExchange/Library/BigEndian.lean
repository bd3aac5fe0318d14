import Mathlib.Data.Nat.Digits.Lemmas

namespace BigEndian

/-- The shortest big-endian byte string of a natural number: no leading
zero byte, and nothing at all for zero. -/
def encode (n : Nat) : List UInt8 :=
  (Nat.digits 256 n).reverse.map UInt8.ofNat

/-- The number a byte string denotes with its most significant byte first. -/
def value (bytes : List UInt8) : Nat :=
  Nat.ofDigits 256 (bytes.reverse.map UInt8.toNat)

theorem toNat_map_ofNat {digits : List Nat} (small : ∀ d ∈ digits, d < 256) :
    (digits.map UInt8.ofNat).map UInt8.toNat = digits := by
  rw [List.map_map]
  refine (List.map_congr_left fun d member => ?_).trans digits.map_id
  exact UInt8.toNat_ofNat_of_lt' (small d member)

@[simp] theorem value_encode (n : Nat) : value (encode n) = n := by
  have small : ∀ d ∈ Nat.digits 256 n, d < 256 := fun d => Nat.digits_lt_base (by decide)
  rw [value, encode, ← List.map_reverse, List.reverse_reverse, toNat_map_ofNat small,
    Nat.ofDigits_digits]

theorem encode_eq_nil {n : Nat} : encode n = [] ↔ n = 0 := by
  simp [encode, Nat.digits_eq_nil_iff_eq_zero]

theorem encode_ne_nil {n : Nat} (positive : 0 < n) : encode n ≠ [] := by
  simpa only [ne_eq, encode_eq_nil] using positive.ne'

theorem encode_length_le {n k : Nat} (bound : n < 256 ^ k) : (encode n).length ≤ k := by
  simpa [encode] using (Nat.digits_length_le_iff (by decide) n).mpr bound

/-- The leading byte of an encoding is never zero, so no two encodings of
different lengths denote the same number. -/
theorem encode_head_ne_zero {n : Nat} {b : UInt8} {rest : List UInt8}
    (shape : encode n = b :: rest) : b ≠ 0 := by
  have nonempty : Nat.digits 256 n ≠ [] := by
    intro empty
    simp [encode, empty] at shape
  have nonzero : n ≠ 0 := Nat.digits_ne_nil_iff_ne_zero.mp nonempty
  have last := Nat.getLast_digit_ne_zero 256 nonzero
  have small := Nat.digits_lt_base (b := 256) (by decide) (List.getLast_mem nonempty)
  have head : b = UInt8.ofNat ((Nat.digits 256 n).getLast nonempty) := by
    have first := congrArg List.head? shape
    rw [encode, List.head?_map, List.head?_reverse, List.getLast?_eq_some_getLast nonempty] at first
    simpa using first.symm
  intro zero
  have same := congrArg UInt8.toNat (head.symm.trans zero)
  rw [UInt8.toNat_ofNat_of_lt' small] at same
  exact last same

theorem digit_lt (bytes : List UInt8) : ∀ d ∈ bytes.reverse.map UInt8.toNat, d < 256 := by
  intro d member
  obtain ⟨b, _, rfl⟩ := List.mem_map.mp member
  exact b.toNat_lt

theorem value_lt (bytes : List UInt8) : value bytes < 256 ^ bytes.length := by
  have bound := Nat.ofDigits_lt_base_pow_length (b := 256) (by decide) (digit_lt bytes)
  rwa [List.length_map, List.length_reverse] at bound

/-- Bytes without a leading zero are the encoding of their number. -/
theorem encode_value {bytes : List UInt8} (plain : ∀ b rest, bytes = b :: rest → b ≠ 0) :
    encode (value bytes) = bytes := by
  have last : ∀ nonempty : bytes.reverse.map UInt8.toNat ≠ [],
      (bytes.reverse.map UInt8.toNat).getLast nonempty ≠ 0 := by
    intro nonempty
    cases bytes with
    | nil => exact absurd rfl nonempty
    | cons b rest =>
      simp only [List.reverse_cons, List.map_append, List.map_singleton, List.getLast_concat]
      exact fun zero => plain b rest rfl (UInt8.toNat_inj.mp zero)
  rw [encode, value, Nat.digits_ofDigits 256 (by decide) _ (digit_lt bytes) last, ← List.map_reverse,
    List.reverse_reverse, List.map_map]
  refine (List.map_congr_left fun b _ => ?_).trans bytes.map_id
  exact UInt8.ofNat_toNat

end BigEndian
