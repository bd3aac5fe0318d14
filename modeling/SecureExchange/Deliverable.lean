import SecureExchange.EnvelopeIntegrity
import SecureExchange.FrameSequence

namespace SecureExchange
open Process

/-- If encryption succeeds and the sending of the envelope reports success,
then every run of the receiver on the bytes written ends with the whole
envelope, and it decrypts as the message. -/
def Deliverable (O : OpenSsl) (key : FixedBytes 32) (iv : FixedBytes 12) (message : List UInt8) : Prop :=
  ∀ encryptedData, AESCrypto.encrypt O iv message key = .ok encryptedData →
    ∀ x e, Relation.ReflTransGen (Turn stream) (Utils.sendData encryptedData, ⟨[], []⟩) (x, e) →
      x.outcome = some (.ok true) →
        Settles stream Utils.receiveData ⟨e.written, []⟩ fun r _ => r = .ok encryptedData ∧
          AESCrypto.decrypt O encryptedData key = .ok message

/-- A payload that is taken at once ends the loop. -/
theorem sendRest_turn {data : List UInt8} (nonempty : data.length ≠ 0) (e : Stream) :
    Turn stream (Utils.sendRest data 0, e) (.ret true, ⟨e.unread, e.written ++ (data.drop 0).take data.length⟩) := by
  have goes : (if data.length = 0 then .ret false else Utils.sendRest data (0 + data.length)) = Proc.ret true := by
    rw [if_neg nonempty, Utils.sendRest, if_neg (by omega)]
  rw [Utils.sendRest, if_pos (by omega), ← goes]
  exact .send (n := data.length) ⟨by rw [List.drop_zero], rfl⟩

/-- When every write is taken whole, sending reports success. -/
theorem sendData_succeeds (data : List UInt8) (e : Stream) :
    ∃ x e', Relation.ReflTransGen (Turn stream) (Utils.sendData data, e) (x, e') ∧ x.outcome = some (.ok true) := by
  have header := LittleEndian.length_encode 4 (data.length % 2 ^ 32)
  have first : Turn stream (Utils.sendData data, e) (Utils.sendRest data 0,
      ⟨e.unread, e.written ++ (LittleEndian.encode 4 (data.length % 2 ^ 32)).take 4⟩) :=
    .send (n := 4) ⟨header.ge, rfl⟩
  by_cases empty : data.length = 0
  · refine ⟨_, _, .single first, ?_⟩
    rw [Utils.sendRest, if_neg (by omega)]
    rfl
  · exact ⟨_, _, (Relation.ReflTransGen.single first).tail (sendRest_turn empty _), rfl⟩

section Message
variable {O : OpenSsl} {key : FixedBytes 32} {iv : FixedBytes 12} {message input : List UInt8}

/-- When the cipher takes an input of the message, the message is
deliverable just if that is all of it and its envelope is within the limit. -/
theorem deliverable_taken (opens : O.OpensSealed key) (taken : updateInput message = some input) :
    Deliverable O key iv message ↔ input.length + 28 ≤ Utils.dataLimit ∧ input = message := by
  have limit : Utils.dataLimit < 2 ^ 31 := by decide
  have short : input.length < 2 ^ 31 := by
    rw [length_updateInput taken]
    exact (updateInput_eq.mp taken).1
  constructor
  · intro deliverable
    obtain ⟨data, encrypted⟩ : ∃ data, AESCrypto.encrypt O iv message key = .ok data :=
      ⟨_, AESCrypto.encrypt_eq.mpr ⟨input, taken, rfl⟩⟩
    obtain ⟨size, decrypted⟩ := AESCrypto.decrypt_encrypt taken encrypted (opens iv input)
    obtain ⟨x, e, sent, succeeded⟩ := sendData_succeeds data ⟨[], []⟩
    obtain ⟨r, e', received, rfl, whole⟩ :=
      (deliverable data encrypted x e sent succeeded).exists_end Utils.receiveData_stream
    have small : data.length ≤ Utils.dataLimit := received.1
    exact ⟨size ▸ small, Except.ok.inj (decrypted.symm.trans whole)⟩
  · rintro ⟨small, rfl⟩ data encrypted x e sent succeeded
    obtain ⟨size, decrypted⟩ := AESCrypto.decrypt_encrypt taken encrypted (opens iv input)
    rw [← size] at small
    have wrote := ((Utils.sendData_stream (small.trans_lt dataLimit_lt)).reach sent).outcome succeeded
    obtain ⟨-, done, same, written⟩ := wrote
    have starts : (⟨e.written, []⟩ : Stream).unread = frame data ++ [] := by
      rw [List.append_nil]
      exact written (Except.ok.inj same).symm
    refine ((Utils.receiveData_frame small starts).mono ?_).settles
    rintro r e' ⟨rfl, -⟩
    exact ⟨rfl, decrypted⟩

/-- A message that the cipher refuses is never sent. -/
theorem deliverable_refused (refused : updateInput message = none) : Deliverable O key iv message := by
  intro data encrypted
  obtain ⟨input, taken, -⟩ := AESCrypto.encrypt_eq.mp encrypted
  cases refused.symm.trans taken

/-- A size that passes as an `int` has to be within the limit itself. -/
theorem deliverable_passes (opens : O.OpensSealed key) (passes : message.length % 2 ^ 32 < 2 ^ 31) :
    Deliverable O key iv message ↔ message.length + 28 ≤ Utils.dataLimit := by
  have limit : Utils.dataLimit < 2 ^ 31 := by decide
  have taken : updateInput message = some (message.take (message.length % 2 ^ 32)) := updateInput_eq.mpr ⟨passes, rfl⟩
  rw [deliverable_taken opens taken, length_updateInput taken, List.take_eq_self_iff]
  omega

end Message

/-- A message is deliverable exactly when its envelope is within the
receiver's limit, or its size is refused as a negative `int`. -/
theorem deliverable_iff (O : OpenSsl) (key : FixedBytes 32) (opens : O.OpensSealed key) (iv : FixedBytes 12)
    (message : List UInt8) :
    Deliverable O key iv message ↔ message.length + 28 ≤ Utils.dataLimit ∨ 2 ^ 31 ≤ message.length % 2 ^ 32 := by
  by_cases passes : message.length % 2 ^ 32 < 2 ^ 31
  · rw [deliverable_passes opens passes, or_iff_left (Nat.not_le.mpr passes)]
  · have refused : updateInput message = none := by
      cases taken : updateInput message with
      | none => rfl
      | some input => exact absurd (updateInput_eq.mp taken).1 passes
    exact iff_of_true (deliverable_refused refused) (Or.inr (Nat.not_lt.mp passes))

theorem deliverable_iff_twoBytes : Deliverable sampleCipher (sampleSecret 5 9) sampleIv [104, 105] :=
  (deliverable_iff sampleCipher (sampleSecret 5 9) (sampleCipher_ideal.opensSealed _) sampleIv [104, 105]).mpr
    (Or.inl (by decide))

/-- A message one byte longer than the limit allows, and one of 4 GiB. -/
theorem undeliverable :
    ¬ Deliverable sampleCipher (sampleSecret 5 9) sampleIv (List.replicate (10 * 1024 * 1024 - 27) 0) ∧
      ¬ Deliverable sampleCipher (sampleSecret 5 9) sampleIv (List.replicate (2 ^ 32) 0) := by
  have opens := sampleCipher_ideal.opensSealed (sampleSecret 5 9)
  constructor
  · rw [deliverable_passes opens (by rw [List.length_replicate]; decide), List.length_replicate]
    decide
  · rw [deliverable_passes opens (by rw [List.length_replicate]; decide), List.length_replicate]
    decide

end SecureExchange
