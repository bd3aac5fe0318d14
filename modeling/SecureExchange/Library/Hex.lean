import Mathlib.Data.List.Basic

namespace Hex

def digit (d : Nat) : Char :=
  ['0', '1', '2', '3', '4', '5', '6', '7', '8', '9', 'a', 'b', 'c', 'd', 'e', 'f'].getD d '0'

/-- Lowercase hexadecimal text, two digits for each byte. -/
def encode (bytes : List UInt8) : List Char :=
  bytes.flatMap fun b => [digit (b.toNat / 16), digit (b.toNat % 16)]

def digitValue (c : Char) : Option Nat :=
  if '0' ≤ c ∧ c ≤ '9' then some (c.toNat - '0'.toNat)
  else if 'a' ≤ c ∧ c ≤ 'f' then some (c.toNat - 'a'.toNat + 10)
  else if 'A' ≤ c ∧ c ≤ 'F' then some (c.toNat - 'A'.toNat + 10)
  else none

/-- Text of even length made of digits of either case. -/
def decode : List Char → Option (List UInt8)
  | [] => some []
  | [_] => none
  | hi :: lo :: rest =>
    match digitValue hi, digitValue lo, decode rest with
    | some h, some l, some bytes => some (UInt8.ofNat (16 * h + l) :: bytes)
    | _, _, _ => none

theorem digitValue_digit {d : Nat} (small : d < 16) : digitValue (digit d) = some d := by
  have all : ∀ d : Fin 16, digitValue (digit d) = some d.val := by decide
  exact all ⟨d, small⟩

theorem decode_encode (bytes : List UInt8) : decode (encode bytes) = some bytes := by
  induction bytes with
  | nil => rfl
  | cons b rest ih =>
    have high : b.toNat / 16 < 16 := by have := b.toNat_lt; omega
    have low : b.toNat % 16 < 16 := Nat.mod_lt _ (by decide)
    have split : encode (b :: rest) =
        digit (b.toNat / 16) :: digit (b.toNat % 16) :: encode rest := rfl
    rw [split, decode, digitValue_digit high, digitValue_digit low, ih]
    simp only [Nat.div_add_mod, UInt8.ofNat_toNat]

theorem encode_injective : Function.Injective encode := by
  intro left right same
  have read := decode_encode left
  rw [same, decode_encode] at read
  exact (Option.some.inj read).symm

/-- The digits in order, in either case. -/
def lowercase : List Char := ['0', '1', '2', '3', '4', '5', '6', '7', '8', '9', 'a', 'b', 'c', 'd', 'e', 'f']

def uppercase : List Char := ['0', '1', '2', '3', '4', '5', '6', '7', '8', '9', 'A', 'B', 'C', 'D', 'E', 'F']

/-- The digit stands at this place in one of the two rows. -/
def Denotes (c : Char) (d : Nat) : Prop := lowercase[d]? = some c ∨ uppercase[d]? = some c

/-- Two digits for each byte, the high half first. -/
def Denote (digits : List Char) (bytes : List UInt8) : Prop :=
  digits.length = 2 * bytes.length ∧ ∀ i b, bytes[i]? = some b → ∃ hi lo,
    digits[2 * i]? = some hi ∧ digits[2 * i + 1]? = some lo ∧ Denotes hi (b.toNat / 16) ∧ Denotes lo (b.toNat % 16)

/-- A character of an interval is its first one and some more. -/
theorem eq_ofNat_of_interval {low c high : Char} (within : low ≤ c ∧ c ≤ high) :
    c = Char.ofNat (low.toNat + (c.toNat - low.toNat)) ∧ c.toNat - low.toNat < high.toNat - low.toNat + 1 := by
  have above : low.toNat ≤ c.toNat := UInt32.le_iff_toNat_le.mp within.1
  have below : c.toNat ≤ high.toNat := UInt32.le_iff_toNat_le.mp within.2
  rw [Nat.add_sub_of_le above, Char.ofNat_toNat]
  exact ⟨rfl, by omega⟩

theorem denotes_of_digitValue {c : Char} {d : Nat} (value : digitValue c = some d) : Denotes c d := by
  unfold digitValue at value
  split at value
  · rename_i within
    obtain ⟨here, small⟩ := eq_ofNat_of_interval within
    cases value
    have row : ∀ n : Fin 10, lowercase[n.val]? = some (Char.ofNat ('0'.toNat + n.val)) := by decide
    left
    exact (row ⟨_, small⟩).trans (congrArg some here.symm)
  split at value
  · rename_i within
    obtain ⟨here, small⟩ := eq_ofNat_of_interval within
    cases value
    have row : ∀ n : Fin 6, lowercase[n.val + 10]? = some (Char.ofNat ('a'.toNat + n.val)) := by decide
    left
    exact (row ⟨_, small⟩).trans (congrArg some here.symm)
  split at value
  · rename_i within
    obtain ⟨here, small⟩ := eq_ofNat_of_interval within
    cases value
    have row : ∀ n : Fin 6, uppercase[n.val + 10]? = some (Char.ofNat ('A'.toNat + n.val)) := by decide
    right
    exact (row ⟨_, small⟩).trans (congrArg some here.symm)
  · cases value

theorem digitValue_lowercase : ∀ d : Fin lowercase.length, digitValue lowercase[d] = some d.val := by decide

theorem digitValue_uppercase : ∀ d : Fin uppercase.length, digitValue uppercase[d] = some d.val := by decide

/-- The value of a digit is its place. -/
theorem digitValue_eq_some {c : Char} {d : Nat} : digitValue c = some d ↔ Denotes c d := by
  refine ⟨denotes_of_digitValue, ?_⟩
  rintro (low | up)
  · obtain ⟨small, rfl⟩ := List.getElem?_eq_some_iff.mp low
    exact digitValue_lowercase ⟨d, small⟩
  · obtain ⟨small, rfl⟩ := List.getElem?_eq_some_iff.mp up
    exact digitValue_uppercase ⟨d, small⟩

theorem Denotes.lt {c : Char} {d : Nat} (denotes : Denotes c d) : d < 16 := by
  rcases denotes with low | up
  · exact (List.getElem?_eq_some_iff.mp low).1
  · exact (List.getElem?_eq_some_iff.mp up).1

/-- Two digits are the halves of the byte they make. -/
theorem ofNat_halves {h l : Nat} (high : h < 16) (low : l < 16) :
    (UInt8.ofNat (16 * h + l)).toNat / 16 = h ∧ (UInt8.ofNat (16 * h + l)).toNat % 16 = l := by
  rw [UInt8.toNat_ofNat']
  omega

theorem decode_cons {hi lo : Char} {rest : List Char} {b : UInt8} {bytes : List UInt8} :
    decode (hi :: lo :: rest) = some (b :: bytes) ↔
      digitValue hi = some (b.toNat / 16) ∧ digitValue lo = some (b.toNat % 16) ∧ decode rest = some bytes := by
  rw [decode]
  constructor
  · intro read
    split at read
    · rename_i h l later high low after
      cases read
      obtain ⟨upper, lower⟩ := ofNat_halves (digitValue_eq_some.mp high).lt (digitValue_eq_some.mp low).lt
      rw [upper, lower]
      exact ⟨high, low, after⟩
    · cases read
  · rintro ⟨high, low, after⟩
    rw [high, low, after]
    simp only [Nat.div_add_mod, UInt8.ofNat_toNat]

theorem denote_cons {hi lo : Char} {rest : List Char} {b : UInt8} {bytes : List UInt8} :
    Denote (hi :: lo :: rest) (b :: bytes) ↔
      Denotes hi (b.toNat / 16) ∧ Denotes lo (b.toNat % 16) ∧ Denote rest bytes := by
  constructor
  · rintro ⟨length, each⟩
    obtain ⟨hi', lo', atHi, atLo, high, low⟩ := each 0 b rfl
    cases atHi
    cases atLo
    refine ⟨high, low, ?_, fun i => each (i + 1)⟩
    simp only [List.length_cons] at length
    omega
  · rintro ⟨high, low, length, each⟩
    refine ⟨by simp only [List.length_cons, length]; omega, ?_⟩
    rintro (_ | i) b' found
    · cases found
      exact ⟨hi, lo, rfl, rfl, high, low⟩
    · exact each i b' found

/-- A single digit denotes no bytes. -/
theorem not_denote_single {c : Char} {bytes : List UInt8} : ¬ Denote [c] bytes := by
  rintro ⟨length, -⟩
  have odd : 1 = 2 * bytes.length := length
  omega

theorem decode_eq_nil {text : List Char} : decode text = some [] ↔ text = [] := by
  match text with
  | [] => simp only [decode]
  | [_] => simp only [decode, reduceCtorEq]
  | hi :: lo :: rest =>
    rw [decode]
    split
    · simp only [Option.some.injEq, reduceCtorEq]
    · simp only [reduceCtorEq]

/-- A text decodes just as the bytes that its digits denote. -/
theorem decode_eq_some {text : List Char} {bytes : List UInt8} : decode text = some bytes ↔ Denote text bytes := by
  induction bytes generalizing text with
  | nil =>
    rw [decode_eq_nil]
    constructor
    · rintro rfl
      exact ⟨rfl, fun _ _ found => by cases found⟩
    · rintro ⟨length, -⟩
      exact List.eq_nil_of_length_eq_zero length
  | cons b bytes ih =>
    match text with
    | [] => exact iff_of_false (by simp [decode]) fun denote => by cases denote.1
    | [c] => exact iff_of_false (by simp [decode]) not_denote_single
    | hi :: lo :: rest => rw [decode_cons, denote_cons, digitValue_eq_some, digitValue_eq_some, ih]

def IsDigit (c : Char) : Prop := c ∈ lowercase ∨ c ∈ uppercase

theorem isDigit_iff {c : Char} : IsDigit c ↔ ∃ d, Denotes c d := by
  rw [IsDigit, List.mem_iff_getElem?, List.mem_iff_getElem?, ← exists_or]
  rfl

theorem Denote.digits {text : List Char} {bytes : List UInt8} (denote : Denote text bytes) : ∀ c ∈ text, IsDigit c := by
  induction bytes generalizing text with
  | nil =>
    cases List.eq_nil_of_length_eq_zero denote.1
    exact fun _ member => absurd member List.not_mem_nil
  | cons b bytes ih =>
    match text with
    | [] => exact fun _ member => absurd member List.not_mem_nil
    | [c] => exact absurd denote not_denote_single
    | hi :: lo :: rest =>
      obtain ⟨high, low, later⟩ := denote_cons.mp denote
      rintro c (_ | ⟨_, _ | ⟨_, member⟩⟩)
      · exact isDigit_iff.mpr ⟨_, high⟩
      · exact isDigit_iff.mpr ⟨_, low⟩
      · exact ih later c member

/-- An even number of digits denotes some bytes. -/
theorem exists_denote {text : List Char} {n : Nat} (even : text.length = 2 * n) (digits : ∀ c ∈ text, IsDigit c) :
    ∃ bytes, Denote text bytes := by
  induction n generalizing text with
  | zero =>
    cases List.eq_nil_of_length_eq_zero even
    exact ⟨[], rfl, fun _ _ found => by cases found⟩
  | succ n ih =>
    match text with
    | [] => cases even
    | [c] =>
      have length : 1 = 2 * (n + 1) := even
      omega
    | hi :: lo :: rest =>
      have length : rest.length + 2 = 2 * (n + 1) := even
      obtain ⟨h, high⟩ := isDigit_iff.mp (digits hi List.mem_cons_self)
      obtain ⟨l, low⟩ := isDigit_iff.mp (digits lo (List.mem_cons_of_mem _ List.mem_cons_self))
      obtain ⟨bytes, later⟩ := ih (by omega : rest.length = 2 * n) fun c member =>
        digits c (List.mem_cons_of_mem _ (List.mem_cons_of_mem _ member))
      obtain ⟨upper, lower⟩ := ofNat_halves high.lt low.lt
      exact ⟨UInt8.ofNat (16 * h + l) :: bytes, denote_cons.mpr ⟨by rwa [upper], by rwa [lower], later⟩⟩

end Hex
