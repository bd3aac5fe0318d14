import SecureExchange.SecureTransfer

namespace SecureExchange

theorem toInt_eq (n : Nat) : toInt n = if n % 2 ^ 32 < 2 ^ 31 then (n % 2 ^ 32 : Int) else n % 2 ^ 32 - 2 ^ 32 := by
  have width : ((Int32.size : Nat) : Int) = 2 ^ 32 := rfl
  rw [toInt, Int32.toInt_ofNat', Int.bmod_def, width]
  split <;> split <;> omega

/-- A length passes as an `int` if its lowest 32 bits do, and only they do. -/
theorem updateInput_eq {data input : List UInt8} :
    updateInput data = some input ↔ data.length % 2 ^ 32 < 2 ^ 31 ∧ input = data.take (data.length % 2 ^ 32) := by
  unfold updateInput
  rw [toInt_eq]
  by_cases small : data.length % 2 ^ 32 < 2 ^ 31
  · have count : ((data.length % 2 ^ 32 : Int)).toNat = data.length % 2 ^ 32 := by omega
    rw [if_pos small, if_neg (by omega), count, Option.some.injEq]
    exact ⟨fun same => ⟨small, same.symm⟩, fun both => both.2.symm⟩
  · rw [if_neg small, if_pos (by omega)]
    exact ⟨fun refused => (nomatch refused), fun both => absurd both.1 small⟩

theorem length_updateInput {data input : List UInt8} (taken : updateInput data = some input) :
    input.length = data.length % 2 ^ 32 := by
  rw [(updateInput_eq.mp taken).2]
  exact List.length_take_of_le (Nat.mod_le ..)

theorem updateInput_of_lt {data : List UInt8} (small : data.length < 2 ^ 31) : updateInput data = some data := by
  have same : data.length % 2 ^ 32 = data.length := Nat.mod_eq_of_lt (by omega)
  rw [updateInput_eq, same, List.take_length]
  exact ⟨small, rfl⟩

/-- A length below 2^32 is passed on unchanged or refused. -/
theorem eq_of_updateInput {data input : List UInt8} (small : data.length < 2 ^ 32)
    (taken : updateInput data = some input) : input = data := by
  rw [(updateInput_eq.mp taken).2, Nat.mod_eq_of_lt small, List.take_length]

namespace AESCrypto
variable {O : OpenSsl} {key : FixedBytes 32}

/-- Three parts of fixed and variable sizes. -/
def envelope (iv : FixedBytes 12) (ciphertext : List UInt8) (tag : FixedBytes 16) : List UInt8 :=
  iv.bytes ++ ciphertext ++ tag.bytes

theorem length_envelope (iv : FixedBytes 12) (ciphertext : List UInt8) (tag : FixedBytes 16) :
    (envelope iv ciphertext tag).length = ciphertext.length + 28 := by
  rw [envelope, List.length_append, List.length_append, iv.length_eq, tag.length_eq]
  omega

/-- Data that is not too small splits into the three parts. -/
theorem exists_envelope {data : List UInt8} (enough : 28 ≤ data.length) :
    ∃ iv ciphertext tag, data = envelope iv ciphertext tag := by
  refine ⟨⟨data.take 12, List.length_take_of_le (by omega)⟩, (data.take (data.length - 16)).drop 12,
    ⟨data.drop (data.length - 16), by rw [List.length_drop]; omega⟩, ?_⟩
  have start : data.take 12 = (data.take (data.length - 16)).take 12 := by
    rw [List.take_take, Nat.min_eq_left (by omega)]
  show data = data.take 12 ++ (data.take (data.length - 16)).drop 12 ++ data.drop (data.length - 16)
  rw [start, List.take_append_drop, List.take_append_drop]

theorem encrypt_eq {iv : FixedBytes 12} {plaintext data : List UInt8} :
    encrypt O iv plaintext key = .ok data ↔ ∃ input, updateInput plaintext = some input ∧
      data = envelope iv (O.gcmSeal key iv input).1 (O.gcmSeal key iv input).2 := by
  unfold encrypt
  cases updateInput plaintext with
  | none => simp only [reduceCtorEq, false_and, exists_false]
  | some input =>
    simp only [Option.some.injEq, exists_eq_left', Except.ok.injEq]
    exact eq_comm

/-- `decrypt` cuts an envelope where it was joined. -/
theorem decrypt_envelope {iv : FixedBytes 12} {ciphertext plaintext : List UInt8} {tag : FixedBytes 16} :
    decrypt O (envelope iv ciphertext tag) key = .ok plaintext ↔
      ∃ input, updateInput ciphertext = some input ∧ O.gcmOpen key iv input tag = some plaintext := by
  have size := length_envelope iv ciphertext tag
  have joint : (envelope iv ciphertext tag).length - 16 = (iv.bytes ++ ciphertext).length := by
    rw [size, List.length_append, iv.length_eq]
    omega
  have front : (envelope iv ciphertext tag).take 12 = iv.bytes := by
    rw [envelope, List.append_assoc, List.take_left' iv.length_eq]
  have back : (envelope iv ciphertext tag).drop ((envelope iv ciphertext tag).length - 16) = tag.bytes := by
    rw [joint, envelope, List.drop_left]
  have middle : ((envelope iv ciphertext tag).take ((envelope iv ciphertext tag).length - 16)).drop 12 = ciphertext := by
    rw [joint, envelope, List.take_left, List.drop_left' iv.length_eq]
  have ivRead : ∀ length_eq, (⟨(envelope iv ciphertext tag).take 12, length_eq⟩ : FixedBytes 12) = iv := fun _ =>
    FixedBytes.ext front
  have tagRead : ∀ length_eq, (⟨(envelope iv ciphertext tag).drop ((envelope iv ciphertext tag).length - 16), length_eq⟩ :
      FixedBytes 16) = tag := fun _ => FixedBytes.ext back
  unfold decrypt
  rw [dif_neg (by omega)]
  dsimp only
  rw [ivRead, tagRead, middle]
  cases updateInput ciphertext with
  | none => simp only [reduceCtorEq, false_and, exists_false]
  | some input =>
    simp only [Option.some.injEq, exists_eq_left']
    cases O.gcmOpen key iv input tag with
    | none => simp only [reduceCtorEq]
    | some found => simp only [Except.ok.injEq, Option.some.injEq]

/-- Data decrypts only as an envelope that opens. -/
theorem decrypt_ok {data plaintext : List UInt8} (result : decrypt O data key = .ok plaintext) :
    ∃ iv ciphertext tag, data = envelope iv ciphertext tag ∧
      ∃ input, updateInput ciphertext = some input ∧ O.gcmOpen key iv input tag = some plaintext := by
  by_cases short : data.length < 28
  · rw [decrypt, dif_pos short] at result
    cases result
  · obtain ⟨iv, ciphertext, tag, rfl⟩ := exists_envelope (Nat.not_lt.mp short)
    exact ⟨iv, ciphertext, tag, rfl, decrypt_envelope.mp result⟩

/-- What the update call takes of a plaintext is what decrypts once it
opens, also where the size of the envelope is no `int`. -/
theorem decrypt_encrypt {iv : FixedBytes 12} {plaintext input data : List UInt8} (taken : updateInput plaintext = some input)
    (encrypted : encrypt O iv plaintext key = .ok data)
    (opens : O.gcmOpen key iv (O.gcmSeal key iv input).1 (O.gcmSeal key iv input).2 = some input) :
    data.length = input.length + 28 ∧ decrypt O data key = .ok input := by
  obtain ⟨input', taken', rfl⟩ := encrypt_eq.mp encrypted
  cases Option.some.inj (taken.symm.trans taken')
  have size := O.gcmSeal_length key iv input
  have small : input.length < 2 ^ 31 := by
    rw [length_updateInput taken]
    exact (updateInput_eq.mp taken).1
  refine ⟨by rw [length_envelope, size], ?_⟩
  exact decrypt_envelope.mpr ⟨_, updateInput_of_lt (size.trans_lt small), opens⟩

end AESCrypto
end SecureExchange
