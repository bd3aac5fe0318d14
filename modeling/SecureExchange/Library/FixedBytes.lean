import Mathlib.Data.List.Basic

/-- A byte array of a fixed length, such as an address, a key or a digest. -/
@[ext] structure FixedBytes (n : Nat) where
  bytes : List UInt8
  length_eq : bytes.length = n
deriving DecidableEq, Repr

namespace FixedBytes

/-- The array with the given bytes, when there are exactly as many as it holds. -/
def ofList? (n : Nat) (bytes : List UInt8) : Option (FixedBytes n) :=
  if h : bytes.length = n then some ⟨bytes, h⟩ else none

@[simp] theorem ofList?_bytes {n : Nat} (a : FixedBytes n) : ofList? n a.bytes = some a :=
  dif_pos a.length_eq

/-- The last `n` bytes of a longer array. -/
def suffix {m : Nat} (n : Nat) (a : FixedBytes (m + n)) : FixedBytes n :=
  ⟨a.bytes.drop m, by simp [a.length_eq]⟩

end FixedBytes
