import SecureExchange.Evp
import SecureExchange.SecureSession

namespace SecureExchange

/-- Authenticated encryption: exactly that opens which was sealed. -/
def OpenSsl.IdealCipher (O : OpenSsl) : Prop :=
  ∀ key iv ciphertext tag plaintext,
    O.gcmOpen key iv ciphertext tag = some plaintext ↔ O.gcmSeal key iv plaintext = (ciphertext, tag)

/-- What is sealed under a key opens under it. -/
def OpenSsl.OpensSealed (O : OpenSsl) (key : FixedBytes 32) : Prop :=
  ∀ iv plaintext, O.gcmOpen key iv (O.gcmSeal key iv plaintext).1 (O.gcmSeal key iv plaintext).2 = some plaintext

theorem OpenSsl.IdealCipher.opensSealed {O : OpenSsl} (ideal : O.IdealCipher) (key : FixedBytes 32) :
    O.OpensSealed key := fun iv plaintext => (ideal key iv _ _ plaintext).mpr rfl

/-- A negative count fails. -/
theorem updateInput_negative {data : List UInt8} (negative : toInt data.length < 0) : updateInput data = none :=
  if_pos negative

theorem updateInput_count {data : List UInt8} {n : Nat} (count : toInt data.length = n) :
    updateInput data = some (data.take n) := by
  have positive : ¬ toInt data.length < 0 := by omega
  rw [updateInput, if_neg positive, count, Int.toNat_natCast]

/-- A size passed as an `int` is negative or no more than the size. -/
theorem toInt_cases (n : Nat) : toInt n < 0 ∨ ∃ k, k ≤ n ∧ toInt n = (k : Nat) := by
  rw [toInt_eq]
  split
  · exact Or.inr ⟨n % 2 ^ 32, Nat.mod_le .., rfl⟩
  · left
    omega

namespace Evp

/-- What the calls on a context with this key and initialization vector do:
the update call writes as many bytes as it takes, the final call none. -/
structure Seals (E : Evp) (O : OpenSsl) (key : FixedBytes 32) (iv : FixedBytes 12) (ctx : E.Context) : Prop where
  negative : ∀ input inl, inl < 0 → E.encryptUpdate ctx input inl = none
  update : ∀ input (n : Nat), n ≤ input.length → ∃ fed done,
    E.encryptUpdate ctx input n = some (fed, (O.gcmSeal key iv (input.take n)).1) ∧
      E.encryptFinal fed = some (done, []) ∧ E.getTag done = some (O.gcmSeal key iv (input.take n)).2

/-- The same for opening, where the final call fails on a wrong tag. -/
structure Opens (E : Evp) (O : OpenSsl) (key : FixedBytes 32) (iv : FixedBytes 12) (ctx : E.Context) : Prop where
  negative : ∀ input inl, inl < 0 → E.decryptUpdate ctx input inl = none
  update : ∀ input (n : Nat), n ≤ input.length → ∃ fed output,
    E.decryptUpdate ctx input n = some (fed, output) ∧ output.length = n ∧ ∀ tag, ∃ tagged, E.setTag fed tag = some tagged ∧
      match O.gcmOpen key iv (input.take n) tag with
      | some plaintext => output = plaintext ∧ ∃ done, E.decryptFinal tagged = some (done, [])
      | none => E.decryptFinal tagged = none

/-- The calls carry out the cipher, on contexts set up for 12-byte vectors. -/
structure Implements (E : Evp) (O : OpenSsl) : Prop where
  sealing : ∀ key iv, ∃ created chosen sized keyed, E.new = some created ∧ E.encryptInit created = some chosen ∧
    E.setIvLen chosen 12 = some sized ∧ E.encryptKeyIv sized key iv = some keyed ∧ E.Seals O key iv keyed
  opening : ∀ key iv, ∃ created chosen sized keyed, E.new = some created ∧ E.decryptInit created = some chosen ∧
    E.setIvLen chosen 12 = some sized ∧ E.decryptKeyIv sized key iv = some keyed ∧ E.Opens O key iv keyed

variable {E : Evp} {O : OpenSsl}

/-- The buffers add nothing to the cipher: what is stored, finished with
nothing and cut to size is what the update call wrote. -/
theorem store_resize {room : Nat} {output : List UInt8} (fits : output.length ≤ room) :
    ∃ buffer, Buffer.store (List.replicate room 0) 0 output = some buffer ∧
      Buffer.store buffer output.length [] = some buffer ∧ Buffer.resize 0 buffer (output.length + 0) = output := by
  refine ⟨_, Buffer.store_start (by rwa [List.length_replicate]), Buffer.store_nil ?_, Buffer.resize_append ..⟩
  rw [List.length_append]
  omega

theorem encrypt_eq (implements : E.Implements O) (iv : FixedBytes 12) (plaintext : List UInt8) (key : FixedBytes 32) :
    E.encrypt (some iv) plaintext key = (AESCrypto.encrypt O iv plaintext key).mapError .thrown := by
  obtain ⟨created, chosen, sized, keyed, new, init, ivLen, keyIv, seals⟩ := implements.sealing key iv
  simp only [encrypt, new, init, ivLen, keyIv, attempt_some_bind]
  rcases toInt_cases plaintext.length with negative | ⟨n, within, count⟩
  · rw [seals.negative _ _ negative, AESCrypto.encrypt, updateInput_negative negative]
    rfl
  · obtain ⟨fed, done, update, final, tag⟩ := seals.update plaintext n within
    have size : (O.gcmSeal key iv (plaintext.take n)).1.length ≤ plaintext.length + E.blockSize keyed := by
      rw [O.gcmSeal_length, List.length_take_of_le within]
      omega
    obtain ⟨buffer, stored, finished, cut⟩ := store_resize size
    rw [count, update, AESCrypto.encrypt, updateInput_count count]
    simp only [attempt_some_bind, bounded_some_bind, stored, final, finished, tag, List.length_nil, cut]
    rfl

/-- The two programs decrypt alike up to the message for a wrong tag. -/
theorem decrypt_eq (implements : E.Implements O) (mismatch : String) (data : List UInt8) (key : FixedBytes 32) :
    E.decrypt mismatch data key = (AESCrypto.decrypt O data key).mapError fun message =>
      .thrown (if message = "Authentication failed: data has been tampered!" then mismatch else message) := by
  by_cases short : data.length < 12 + 16
  · rw [decrypt, AESCrypto.decrypt, dif_pos short, dif_pos short]
    rfl
  rw [decrypt, AESCrypto.decrypt, dif_neg short, dif_neg short]
  dsimp only
  generalize (⟨data.take 12, _⟩ : FixedBytes 12) = iv
  generalize (⟨data.drop (data.length - 16), _⟩ : FixedBytes 16) = tag
  generalize (data.take (data.length - 16)).drop 12 = ciphertext
  obtain ⟨created, chosen, sized, keyed, new, init, ivLen, keyIv, opens⟩ := implements.opening key iv
  simp only [new, init, ivLen, keyIv, attempt_some_bind]
  rcases toInt_cases ciphertext.length with negative | ⟨n, within, count⟩
  · have other : ("Decryption failed" : String) ≠ "Authentication failed: data has been tampered!" := by decide
    rw [opens.negative _ _ negative, updateInput_negative negative]
    simp only [attempt_none_bind, Except.mapError, if_neg other]
  · obtain ⟨fed, output, update, size, rest⟩ := opens.update ciphertext n within
    obtain ⟨tagged, setTag, final⟩ := rest tag
    obtain ⟨buffer, stored, finished, cut⟩ := store_resize (size.trans_le within)
    rw [count, update, updateInput_count count]
    simp only [attempt_some_bind, bounded_some_bind, stored, setTag]
    cases opened : O.gcmOpen key iv (ciphertext.take n) tag with
    | none =>
      rw [opened] at final
      rw [final]
      simp only [attempt_none_bind, Except.mapError, if_true]
    | some plaintext =>
      rw [opened] at final
      obtain ⟨rfl, done, final⟩ := final
      simp only [final, attempt_some_bind, bounded_some_bind, finished, List.length_nil, cut]
      rfl

end Evp

/-- The two programs with their own copies of the cipher functions. -/
inductive Program where
  | secureTransfer
  | cryptoCore

def Program.encrypt : Program → Evp → Option (FixedBytes 12) → List UInt8 → FixedBytes 32 → Except Failure (List UInt8)
  | .secureTransfer => SecureTransfer.AESCrypto.encrypt
  | .cryptoCore => CryptoCore.AESCrypto.encrypt

def Program.decrypt : Program → Evp → List UInt8 → FixedBytes 32 → Except Failure (List UInt8)
  | .secureTransfer => SecureTransfer.AESCrypto.decrypt
  | .cryptoCore => CryptoCore.AESCrypto.decrypt

/-- The data is an initialization vector with what sealing the plaintext under it gives. -/
def SealedAs (O : OpenSsl) (key : FixedBytes 32) (data plaintext : List UInt8) : Prop :=
  ∃ iv ciphertext tag, data = AESCrypto.envelope iv ciphertext tag ∧ O.gcmSeal key iv plaintext = (ciphertext, tag)

section Programs
variable {E : Evp} {O : OpenSsl} {key : FixedBytes 32} (implements : E.Implements O)
include implements

theorem Program.encrypt_eq (program : Program) (iv : FixedBytes 12) (plaintext : List UInt8) :
    program.encrypt E (some iv) plaintext key = (AESCrypto.encrypt O iv plaintext key).mapError .thrown := by
  cases program with
  | secureTransfer => exact Evp.encrypt_eq implements iv plaintext key
  | cryptoCore => exact Evp.encrypt_eq implements iv plaintext key

theorem Program.decrypt_eq (program : Program) (data : List UInt8) (key : FixedBytes 32) : ∃ mismatch,
    program.decrypt E data key = (AESCrypto.decrypt O data key).mapError fun message =>
      .thrown (if message = "Authentication failed: data has been tampered!" then mismatch else message) := by
  cases program with
  | secureTransfer => exact ⟨_, Evp.decrypt_eq implements _ data key⟩
  | cryptoCore => exact ⟨_, Evp.decrypt_eq implements _ data key⟩

theorem Program.decrypt_ok (program : Program) {data plaintext : List UInt8} :
    program.decrypt E data key = .ok plaintext ↔ AESCrypto.decrypt O data key = .ok plaintext := by
  obtain ⟨mismatch, same⟩ := program.decrypt_eq implements data key
  rw [same]
  cases AESCrypto.decrypt O data key with
  | ok found => simp only [Except.mapError, Except.ok.injEq]
  | error message => simp only [Except.mapError, reduceCtorEq]

/-- Decryption never writes beyond a buffer. -/
theorem Program.decrypt_ends (program : Program) (data : List UInt8) (key : FixedBytes 32) :
    (∃ plaintext, program.decrypt E data key = .ok plaintext) ∨
      ∃ message, program.decrypt E data key = .error (.thrown message) := by
  obtain ⟨mismatch, same⟩ := program.decrypt_eq implements data key
  rw [same]
  cases AESCrypto.decrypt O data key with
  | ok found => exact Or.inl ⟨found, rfl⟩
  | error message => exact Or.inr ⟨_, rfl⟩

end Programs

section Cipher
variable {O : OpenSsl} {key : FixedBytes 32}

/-- Data of a size that passes as an `int` decrypts exactly as what it was sealed from. -/
theorem decrypt_sealed (ideal : O.IdealCipher) {data plaintext : List UInt8} (small : data.length < 2 ^ 31) :
    AESCrypto.decrypt O data key = .ok plaintext ↔ SealedAs O key data plaintext := by
  constructor
  · intro decrypted
    obtain ⟨iv, ciphertext, tag, rfl, input, taken, opened⟩ := AESCrypto.decrypt_ok decrypted
    rw [AESCrypto.length_envelope] at small
    cases Option.some.inj (taken.symm.trans (updateInput_of_lt (by omega)))
    exact ⟨iv, _, tag, rfl, (ideal ..).mp opened⟩
  · rintro ⟨iv, ciphertext, tag, rfl, same⟩
    rw [AESCrypto.length_envelope] at small
    exact AESCrypto.decrypt_envelope.mpr ⟨ciphertext, updateInput_of_lt (by omega), (ideal ..).mpr same⟩

end Cipher

/-- What either program encrypts the other one decrypts, and data decrypts
as a plaintext only if it is an envelope sealed from it; everything else is
refused with an exception. -/
theorem envelope_integrity (E : Evp) (O : OpenSsl) (implements : E.Implements O) (ideal : O.IdealCipher)
    (key : FixedBytes 32) :
    (∀ (sender receiver : Program) iv plaintext, plaintext.length < 2 ^ 31 →
      ∃ data, sender.encrypt E (some iv) plaintext key = .ok data ∧ receiver.decrypt E data key = .ok plaintext) ∧
    ∀ (receiver : Program) data, data.length < 2 ^ 31 →
      (∀ plaintext, receiver.decrypt E data key = .ok plaintext ↔ SealedAs O key data plaintext) ∧
      ((∀ plaintext, ¬ SealedAs O key data plaintext) →
        ∃ message, receiver.decrypt E data key = .error (.thrown message)) ∧
      (data.length < 28 → receiver.decrypt E data key = .error (.thrown "Encrypted data too small")) := by
  refine ⟨fun sender receiver iv plaintext small => ?_, fun receiver data small => ?_⟩
  · have taken := updateInput_of_lt small
    obtain ⟨data, encrypted⟩ : ∃ data, AESCrypto.encrypt O iv plaintext key = .ok data :=
      ⟨_, AESCrypto.encrypt_eq.mpr ⟨plaintext, taken, rfl⟩⟩
    have decrypted := (AESCrypto.decrypt_encrypt taken encrypted (ideal.opensSealed key iv plaintext)).2
    refine ⟨data, ?_, (receiver.decrypt_ok implements).mpr decrypted⟩
    rw [sender.encrypt_eq implements, encrypted]
    rfl
  · have exactly : ∀ plaintext, receiver.decrypt E data key = .ok plaintext ↔ SealedAs O key data plaintext :=
      fun plaintext => (receiver.decrypt_ok implements).trans (decrypt_sealed ideal small)
    refine ⟨exactly, fun none => ?_, fun short => ?_⟩
    · rcases receiver.decrypt_ends implements data key with ⟨plaintext, decrypted⟩ | refused
      · exact absurd ((exactly plaintext).mp decrypted) (none plaintext)
      · exact refused
    · cases receiver with
      | secureTransfer | cryptoCore => exact dif_pos short

/-- A one-byte key stream both ways. -/
def sampleStream (key : FixedBytes 32) (text : List UInt8) : List UInt8 := text.map (key.bytes.headD 0 ^^^ ·)

theorem sampleStream_sampleStream (key : FixedBytes 32) (text : List UInt8) :
    sampleStream key (sampleStream key text) = text := by
  have twice : ∀ b : UInt8, key.bytes.headD 0 ^^^ (key.bytes.headD 0 ^^^ b) = b := fun b => by
    rw [← UInt8.xor_assoc, UInt8.xor_self, UInt8.zero_xor]
  simp only [sampleStream, List.map_map, Function.comp_def, twice, List.map_id']

/-- The stand-in for sealing, with an opening that seals again to compare. -/
def sampleCipher : OpenSsl :=
  { sampleOpenSsl [] with
    gcmOpen := fun key iv ciphertext tag =>
      if sampleSeal key iv (sampleStream key ciphertext) = (ciphertext, tag) then some (sampleStream key ciphertext)
      else none }

theorem sampleCipher_ideal : sampleCipher.IdealCipher := by
  intro key iv ciphertext tag plaintext
  show (if _ then some (sampleStream key ciphertext) else none) = some plaintext ↔ sampleSeal key iv plaintext = _
  rw [Option.ite_none_right_eq_some, Option.some.injEq]
  constructor
  · rintro ⟨same, rfl⟩
    exact same
  · intro same
    have ciphered : sampleStream key plaintext = ciphertext := congrArg Prod.fst same
    rw [← ciphered, sampleStream_sampleStream, ciphered]
    exact ⟨same, rfl⟩

/-- What a context of the stand-in calls has been given. -/
inductive SampleContext where
  | fresh
  | keyed (key : FixedBytes 32) (iv : FixedBytes 12)
  | fed (key : FixedBytes 32) (iv : FixedBytes 12) (input : List UInt8)
  | tagged (key : FixedBytes 32) (iv : FixedBytes 12) (input : List UInt8) (tag : FixedBytes 16)

/-- The stand-in cipher as calls on a context. -/
def sampleEvp : Evp where
  Context := SampleContext
  new := some .fresh
  blockSize _ := 1
  setIvLen ctx n := if n = 12 then some ctx else none
  encryptInit := some
  encryptKeyIv _ key iv := some (.keyed key iv)
  encryptUpdate
    | .keyed key iv, input, inl =>
      if inl < 0 then none
      else some (.fed key iv (input.take inl.toNat), (sampleSeal key iv (input.take inl.toNat)).1)
    | _, _, _ => none
  encryptFinal ctx := some (ctx, [])
  getTag
    | .fed key iv input => some (sampleSeal key iv input).2
    | _ => none
  decryptInit := some
  decryptKeyIv _ key iv := some (.keyed key iv)
  decryptUpdate
    | .keyed key iv, input, inl =>
      if inl < 0 then none
      else some (.fed key iv (input.take inl.toNat), sampleStream key (input.take inl.toNat))
    | _, _, _ => none
  setTag
    | .fed key iv input, tag => some (.tagged key iv input tag)
    | _, _ => none
  decryptFinal
    | .tagged key iv input tag =>
      if (sampleCipher.gcmOpen key iv input tag).isSome then some (.tagged key iv input tag, []) else none
    | _ => none

theorem sampleEvp_implements : sampleEvp.Implements sampleCipher where
  sealing key iv := by
    refine ⟨.fresh, .fresh, .fresh, .keyed key iv, rfl, rfl, rfl, rfl, fun input inl negative => if_pos negative, ?_⟩
    intro input n _
    exact ⟨.fed key iv (input.take n), .fed key iv (input.take n), rfl, rfl, rfl⟩
  opening key iv := by
    refine ⟨.fresh, .fresh, .fresh, .keyed key iv, rfl, rfl, rfl, rfl, fun input inl negative => if_pos negative, ?_⟩
    intro input n within
    refine ⟨.fed key iv (input.take n), sampleStream key (input.take n), rfl, ?_, fun tag =>
      ⟨.tagged key iv (input.take n) tag, rfl, ?_⟩⟩
    · rw [sampleStream, List.length_map, List.length_take_of_le within]
    · have final : sampleEvp.decryptFinal (.tagged key iv (input.take n) tag) =
          if (sampleCipher.gcmOpen key iv (input.take n) tag).isSome then some (.tagged key iv (input.take n) tag, [])
          else none := rfl
      rw [final]
      cases opened : sampleCipher.gcmOpen key iv (input.take n) tag with
      | none => rfl
      | some plaintext =>
        have streamed : sampleStream key plaintext = input.take n := congrArg Prod.fst ((sampleCipher_ideal ..).mp opened)
        refine ⟨?_, _, rfl⟩
        rw [← streamed]
        exact sampleStream_sampleStream key plaintext

theorem envelope_integrity_twoBytes :
    (∃ data, Program.encrypt .secureTransfer sampleEvp (some sampleIv) [104, 105] (sampleSecret 5 9) = .ok data ∧
      Program.decrypt .cryptoCore sampleEvp data (sampleSecret 5 9) = .ok [104, 105]) ∧
    Program.decrypt .secureTransfer sampleEvp [104, 105] (sampleSecret 5 9) =
      .error (.thrown "Encrypted data too small") :=
  have integrity := envelope_integrity sampleEvp sampleCipher sampleEvp_implements sampleCipher_ideal (sampleSecret 5 9)
  ⟨integrity.1 .secureTransfer .cryptoCore sampleIv [104, 105] (by decide),
    (integrity.2 .secureTransfer [104, 105] (by decide)).2.2 (by decide)⟩

end SecureExchange
