import SecureExchange.AddressText
import SecureExchange.Library.Words
import SecureExchange.NodeLaws

namespace SecureExchange
open Reactive Words

theorem splitWhitespace_trim (text : List Char) : splitWhitespace (trim text) = words isWhitespace text :=
  words_trim isWhitespace text

/-- A decimal number in any number of digits. -/
def Decimal (digits : List Char) (n : Nat) : Prop :=
  digits ≠ [] ∧ (∀ c ∈ digits, c.isDigit = true) ∧ Nat.ofDigitChars 10 digits 0 = n

theorem isDigit_iff {c : Char} : c.isDigit = true ↔ '0' ≤ c ∧ c ≤ '9' := by
  simp [Char.isDigit, Char.le_def]

theorem parseDigits_eq_some {digits : List Char} {acc n : Nat} :
    parseDigits digits acc = some n ↔ (∀ c ∈ digits, c.isDigit = true) ∧ Nat.ofDigitChars 10 digits acc = n := by
  induction digits generalizing acc with
  | nil => simp [parseDigits]
  | cons c rest ih =>
    rw [parseDigits, Nat.ofDigitChars_cons]
    by_cases digit : c.isDigit = true
    · rw [if_pos (isDigit_iff.mp digit), ih]
      simp [digit]
    · rw [if_neg fun between => digit (isDigit_iff.mpr between)]
      simp [digit]

/-- A plus sign may stand before a number. -/
def Signed (text digits : List Char) : Prop := text = digits ∨ text = '+' :: digits

/-- What is read of the digits after the sign. -/
def readDigits (digits : List Char) : Option UInt64 :=
  if digits.isEmpty then none
  else
    match parseDigits digits 0 with
    | none => none
    | some n => if n < 2 ^ 64 then some (UInt64.ofNat n) else none

theorem parseU64_plus (digits : List Char) : parseU64 ('+' :: digits) = readDigits digits := rfl

theorem parseU64_plain {text : List Char} (plain : ∀ rest, text ≠ '+' :: rest) : parseU64 text = readDigits text := by
  unfold parseU64
  split
  · exact absurd rfl (plain _)
  · rfl

theorem readDigits_eq_some {digits : List Char} {amount : UInt64} :
    readDigits digits = some amount ↔ Decimal digits amount.toNat := by
  unfold readDigits Decimal
  have small := amount.toNat_lt
  by_cases none : digits = []
  · simp [none]
  rw [if_neg (by simpa using none)]
  constructor
  · intro read
    split at read
    · cases read
    · rename_i n parsed
      split at read
      · rename_i fits
        cases read
        obtain ⟨all, value⟩ := parseDigits_eq_some.mp parsed
        exact ⟨none, all, by rw [value, UInt64.toNat_ofNat', Nat.mod_eq_of_lt fits]⟩
      · cases read
  · rintro ⟨_, all, value⟩
    have parsed := parseDigits_eq_some.mpr ⟨all, value⟩
    simp only [parsed, if_pos small, UInt64.ofNat_toNat]

/-- An amount is read just from a decimal number below 2^64, with or
without a plus sign. -/
theorem parseU64_eq_some {text : List Char} {amount : UInt64} :
    parseU64 text = some amount ↔ ∃ digits, Signed text digits ∧ Decimal digits amount.toNat := by
  have sign : ¬ '+'.isDigit = true := by decide
  by_cases plus : ∃ rest, text = '+' :: rest
  · obtain ⟨rest, rfl⟩ := plus
    rw [parseU64_plus, readDigits_eq_some]
    constructor
    · exact fun decimal => ⟨rest, Or.inr rfl, decimal⟩
    · rintro ⟨digits, rfl | same, decimal⟩
      · exact absurd (decimal.2.1 '+' List.mem_cons_self) sign
      · cases same
        exact decimal
  · have plain : ∀ rest, text ≠ '+' :: rest := fun rest same => plus ⟨rest, same⟩
    rw [parseU64_plain plain, readDigits_eq_some]
    constructor
    · exact fun decimal => ⟨text, Or.inl rfl, decimal⟩
    · rintro ⟨digits, rfl | same, decimal⟩
      · exact decimal
      · exact absurd same (plain digits)

/-- A number as it is printed is one. -/
theorem decimal_toString (amount : UInt64) : Decimal (toString amount).toList amount.toNat := by
  have printed : (toString amount).toList = Nat.toDigits 10 amount.toNat := Nat.toList_repr
  rw [printed]
  exact ⟨Nat.toDigits_ne_nil, fun c => Nat.isDigit_of_mem_toDigits (by decide) (by decide),
    Nat.ofDigitChars_ten_toDigits⟩

/-- A line that asks for a transfer: one of the two command words, an
address with or without `0x`, and an amount below 2^64 with or without a
plus sign, in any white space. -/
def SendLine (line : String) (toAddr : Address) (amount : UInt64) : Prop :=
  ∃ command address number hex digits, Spells isWhitespace line.toList [command, address, number] ∧
    (command = "send".toList ∨ command = "transfer".toList) ∧ Prefixed address hex ∧ Hex.Denote hex toAddr.bytes ∧
    Signed number digits ∧ Decimal digits amount.toNat

theorem parseSend_eq_some {line : String} {toAddr : Address} {amount : UInt64} :
    parseSend line = some (toAddr, amount) ↔ SendLine line toAddr amount := by
  have word : ∀ (command : List Char) (text : String), String.ofList command = text ↔ command = text.toList :=
    fun command text => ⟨fun same => by rw [← same, String.toList_ofList], fun same => by rw [same, String.ofList_toList]⟩
  unfold parseSend
  rw [splitWhitespace_trim]
  constructor
  · intro parsed
    split at parsed
    · rename_i command address number found
      split at parsed
      · rename_i sends
        split at parsed
        · rename_i a value read numeral
          cases parsed
          obtain ⟨hex, prefixed, denote⟩ := addressFromHex_eq_ok.mp read
          obtain ⟨digits, signed, decimal⟩ := parseU64_eq_some.mp numeral
          rw [word, word] at sends
          exact ⟨command, address, number, hex, digits, words_eq_iff.mp found, sends, prefixed, denote, signed, decimal⟩
        · cases parsed
      · cases parsed
    · cases parsed
  · rintro ⟨command, address, number, hex, digits, spells, sends, prefixed, denote, signed, decimal⟩
    have read := addressFromHex_eq_ok.mpr ⟨hex, prefixed, denote⟩
    have numeral := parseU64_eq_some.mpr ⟨digits, signed, decimal⟩
    rw [← word, ← word] at sends
    simp only [spells.words_eq, if_pos sends, read, numeral]

/-- A line can be read as one transfer at most. -/
theorem SendLine.unique {line : String} {a b : Address} {x y : UInt64} (left : SendLine line a x)
    (right : SendLine line b y) : a = b ∧ x = y := by
  have same := (parseSend_eq_some.mpr left).symm.trans (parseSend_eq_some.mpr right)
  cases same
  exact ⟨rfl, rfl⟩

/-- What the node prints of an address and an amount can be typed. -/
theorem sendLine_of_printed {line : String} {toAddr : Address} {amount : UInt64} {command address : List Char}
    (sends : command = "send".toList ∨ command = "transfer".toList) (prefixed : Prefixed address (Hex.encode toAddr.bytes))
    (spells : Spells isWhitespace line.toList [command, address, (toString amount).toList]) :
    SendLine line toAddr amount :=
  ⟨command, address, _, _, _, spells, sends, prefixed, denote_encode toAddr.bytes, Or.inl rfl, decimal_toString amount⟩

/-- The command line is exact: a line that asks for a transfer makes the
node try just that transfer, every other line only prints, and what the
node prints of an address and an amount can be typed back in. -/
theorem commandLine_exact (C : Primitives) (Peer : Type) :
    (∀ (p : Profile) (n : Node C Peer) line now publishOk toAddr amount, SendLine line toAddr amount →
      n.handleCommand p line now publishOk = n.sendTransfer p toAddr amount now publishOk) ∧
    (∀ (p : Profile) (n : Node C Peer) line now publishOk, (∀ toAddr amount, ¬ SendLine line toAddr amount) →
      ∃ texts : List String, n.handleCommand p line now publishOk = ⟨n, texts.map .println, false⟩) ∧
    (∀ line a x b y, SendLine line a x → SendLine line b y → a = b ∧ x = y) ∧
    ∀ line toAddr (amount : UInt64) command,
      (command = "send".toList ∨ command = "transfer".toList) →
      Spells isWhitespace line.toList [command, (hexString toAddr.bytes).toList, (toString amount).toList] →
      SendLine line toAddr amount := by
  refine ⟨fun p n line now publishOk toAddr amount asks => ?_, fun p n line now publishOk other => ?_,
    fun line a x b y => SendLine.unique, fun line toAddr amount command sends spells => ?_⟩
  · exact Node.handleCommand_of_send (parseSend_eq_some.mpr asks)
  · refine Node.handleCommand_of_other p n now publishOk ?_
    cases parsed : parseSend line with
    | none => rfl
    | some request => exact absurd (parseSend_eq_some.mp parsed) (other _ _)
  · refine sendLine_of_printed sends ?_ spells
    rw [hexString, String.toList_ofList]
    exact Or.inr rfl

end SecureExchange
