import SecureExchange.Envelope
import SecureExchange.Framing

namespace SecureExchange
open Process

/-- Keys survive their PEM form, which fits in a frame, and two key pairs
agree on a secret. -/
structure OpenSsl.KeyExchange (O : OpenSsl) : Prop where
  import_export : ∀ key, O.readPubkey (O.writePubkey key) = some key
  pem_small : ∀ key, (O.writePubkey key).length ≤ Utils.dataLimit
  agree : ∀ left right, ∃ secret, O.derive left (O.publicKey right) = some secret ∧
    O.derive right (O.publicKey left) = some secret

/-- Under a session key exactly that opens which the sender has sealed: what
the update call takes of the message, if it takes it at all. -/
def OpenSsl.Ideal (O : OpenSsl) (key : FixedBytes 32) (iv : FixedBytes 12) (message : List UInt8) : Prop :=
  ∀ iv' ciphertext tag plaintext, O.gcmOpen key iv' ciphertext tag = some plaintext ↔
    updateInput message = some plaintext ∧ iv' = iv ∧ O.gcmSeal key iv plaintext = (ciphertext, tag)

section Session
variable {O : OpenSsl} {sender receiver : O.PrivateKey} {iv : FixedBytes 12} {message : List UInt8}

theorem importPublicKey_exported (exchange : O.KeyExchange) (ecc : O.PrivateKey) :
    ECCCrypto.importPublicKey O (ECCCrypto.exportPublicKey O ecc) = .ok (O.publicKey ecc) := by
  rw [ECCCrypto.importPublicKey, ECCCrypto.exportPublicKey, exchange.import_export]

theorem deriveSharedSecret_ok {ecc : O.PrivateKey} {peer : O.PublicKey} {secret : FixedBytes 32}
    (derived : O.derive ecc peer = some secret) : ECCCrypto.deriveSharedSecret O ecc peer = .ok secret := by
  rw [ECCCrypto.deriveSharedSecret, derived]

/-- The frames of a transfer in order. The receiver speaks first. -/
def transcript (O : OpenSsl) (sender receiver : O.PrivateKey) (encryptedData : List UInt8) : Script :=
  spoken .right (frame (ECCCrypto.exportPublicKey O receiver)) ++
    (spoken .left (frame (ECCCrypto.exportPublicKey O sender)) ++ (spoken .left (frame encryptedData) ++ []))

theorem performSecureTransfer_script (exchange : O.KeyExchange) {secret : FixedBytes 32} {data : List UInt8}
    (derived : O.derive sender (O.publicKey receiver) = some secret)
    (encrypted : AESCrypto.encrypt O iv message (aesKey secret) = .ok data) (small : data.length ≤ Utils.dataLimit) :
    Meets (script .left) (SecureSender.performSecureTransfer O sender iv message) (transcript O sender receiver data)
      (Ends (.ok ())) := by
  have pem := exchange.pem_small (O.publicKey sender)
  refine Meets.andThen (Utils.receiveData_script (exchange.pem_small _)) ?_
  refine Meets.andThen (Utils.sendData_script (pem.trans_lt dataLimit_lt)) ?_
  rw [importPublicKey_exported exchange, Proc.ofExcept_ok_bind, deriveSharedSecret_ok derived,
    Proc.ofExcept_ok_bind, encrypted, Proc.ofExcept_ok_bind]
  exact Meets.andThen (Utils.sendData_script (small.trans_lt dataLimit_lt)) ⟨rfl, rfl⟩

theorem handleClient_script (exchange : O.KeyExchange) {secret : FixedBytes 32} {data plaintext : List UInt8}
    (derived : O.derive receiver (O.publicKey sender) = some secret)
    (decrypted : AESCrypto.decrypt O data (aesKey secret) = .ok plaintext) (small : data.length ≤ Utils.dataLimit) :
    Meets (script .right) (SecureReceiver.handleClient O receiver) (transcript O sender receiver data)
      (Ends (.ok plaintext)) := by
  have pem := exchange.pem_small (O.publicKey receiver)
  refine Meets.andThen (Utils.sendData_script (pem.trans_lt dataLimit_lt)) ?_
  refine Meets.andThen (Utils.receiveData_script (exchange.pem_small _)) ?_
  rw [importPublicKey_exported exchange, Proc.ofExcept_ok_bind, deriveSharedSecret_ok derived, Proc.ofExcept_ok_bind]
  refine Meets.andThen (Utils.receiveData_script small) ?_
  rw [decrypted]
  exact ⟨rfl, rfl⟩

/-- What opens is what the sender sealed. -/
theorem decrypt_received {key : FixedBytes 32} {data plaintext : List UInt8} (ideal : O.Ideal key iv message)
    (small : data.length ≤ Utils.dataLimit) (decrypted : AESCrypto.decrypt O data key = .ok plaintext) :
    updateInput message = some plaintext ∧ data.length = plaintext.length + 28 := by
  obtain ⟨iv', ciphertext, tag, rfl, input, taken, opened⟩ := AESCrypto.decrypt_ok decrypted
  rw [AESCrypto.length_envelope] at small ⊢
  have limit : Utils.dataLimit < 2 ^ 31 := by decide
  cases Option.some.inj (taken.symm.trans (updateInput_of_lt (by omega)))
  obtain ⟨sent, -, same⟩ := (ideal _ _ _ _).mp opened
  have sizes : ciphertext.length = plaintext.length := by rw [← O.gcmSeal_length key iv plaintext, same]
  exact ⟨sent, by omega⟩

/-- The receiver ends with what was sealed of the message. -/
theorem transfer_concludes (exchange : O.KeyExchange) {secret : FixedBytes 32} {data input : List UInt8}
    (derived : O.derive sender (O.publicKey receiver) = some secret) (ideal : O.Ideal (aesKey secret) iv message)
    (taken : updateInput message = some input)
    (encrypted : AESCrypto.encrypt O iv message (aesKey secret) = .ok data) (small : data.length ≤ Utils.dataLimit) :
    Link.Concludes ⟨SecureSender.performSecureTransfer O sender iv message, SecureReceiver.handleClient O receiver, [], []⟩
      (.ok ()) (.ok input) := by
  obtain ⟨other, derived', peer⟩ := exchange.agree sender receiver
  cases Option.some.inj (derived.symm.trans derived')
  have opens := (ideal iv _ _ input).mpr ⟨taken, rfl, rfl⟩
  exact Link.concludes (performSecureTransfer_script exchange derived encrypted small)
    (handleClient_script exchange peer (AESCrypto.decrypt_encrypt taken encrypted opens).2 small)

/-- With the sender's key frame as sent and anything after it, the receiver
ends with what was sealed of the message or with an error. -/
theorem handleClient_stream (exchange : O.KeyExchange) {secret : FixedBytes 32}
    (derived : O.derive sender (O.publicKey receiver) = some secret) (ideal : O.Ideal (aesKey secret) iv message)
    (junk : List UInt8) :
    Meets stream (SecureReceiver.handleClient O receiver) ⟨frame (ECCCrypto.exportPublicKey O sender) ++ junk, []⟩
      fun r _ => (∃ text, r = .error text) ∨
        ∃ input, r = .ok input ∧ updateInput message = some input ∧ input.length + 28 ≤ Utils.dataLimit := by
  obtain ⟨other, derived', peer⟩ := exchange.agree sender receiver
  cases Option.some.inj (derived.symm.trans derived')
  have pem : (ECCCrypto.exportPublicKey O sender).length ≤ Utils.dataLimit := exchange.pem_small _
  refine Meets.bind ((Utils.sendData_stream ((exchange.pem_small _).trans_lt dataLimit_lt)).mono ?_)
  rintro r e ⟨unread, done, rfl, -⟩
  cases done with
  | false => exact Or.inl ⟨_, rfl⟩
  | true =>
    refine Meets.bind ((Utils.receiveData_frame pem unread).mono ?_)
    rintro r e' ⟨rfl, -⟩
    show Meets stream (_ >>= _) _ _
    rw [importPublicKey_exported exchange, Proc.ofExcept_ok_bind, deriveSharedSecret_ok peer, Proc.ofExcept_ok_bind]
    refine Meets.bind (Utils.receiveData_stream.mono ?_)
    rintro (text | data) e'' post
    · exact Or.inl ⟨_, rfl⟩
    · refine meets_ofExcept.mpr ?_
      cases decrypted : AESCrypto.decrypt O data (aesKey secret) with
      | error text => exact Or.inl ⟨_, rfl⟩
      | ok plaintext =>
        obtain ⟨sent, size⟩ := decrypt_received ideal post.1 decrypted
        exact Or.inr ⟨plaintext, rfl, sent, size ▸ post.1⟩

/-- If the encrypted frame is within the limit, the transfer never
deadlocks and the receiver ends with the message. -/
def Delivers (O : OpenSsl) (sender receiver : O.PrivateKey) (iv : FixedBytes 12) (message : List UInt8) : Prop :=
  ∀ secret data, O.derive sender (O.publicKey receiver) = some secret →
    AESCrypto.encrypt O iv message (aesKey secret) = .ok data → data.length ≤ Utils.dataLimit →
    Link.Concludes ⟨SecureSender.performSecureTransfer O sender iv message, SecureReceiver.handleClient O receiver, [], []⟩
      (.ok ()) (.ok message)

/-- Whatever follows the sender's key on the stream, and however reads are
cut, the receiver can go on, or has ended with the message or an error. -/
def Authentic (O : OpenSsl) (sender receiver : O.PrivateKey) (message : List UInt8) : Prop :=
  ∀ junk x e, Relation.ReflTransGen (Turn stream)
      (SecureReceiver.handleClient O receiver, ⟨frame (ECCCrypto.exportPublicKey O sender) ++ junk, []⟩) (x, e) →
    (∃ there, Turn stream (x, e) there) ∨ x.outcome = some (.ok message) ∨ ∃ text, x.outcome = some (.error text)

/-- A longer message whose length passes as an `int` arrives cut. -/
theorem not_delivers (exchange : O.KeyExchange) {secret : FixedBytes 32}
    (derived : O.derive sender (O.publicKey receiver) = some secret) (ideal : O.Ideal (aesKey secret) iv message)
    (long : 2 ^ 32 ≤ message.length) (small : message.length % 2 ^ 32 + 28 ≤ Utils.dataLimit) :
    ¬ Delivers O sender receiver iv message := by
  intro delivers
  have limit : Utils.dataLimit < 2 ^ 31 := by decide
  obtain ⟨input, taken⟩ : ∃ input, updateInput message = some input := ⟨_, updateInput_eq.mpr ⟨by omega, rfl⟩⟩
  have cut := length_updateInput taken
  have encrypted : AESCrypto.encrypt O iv message (aesKey secret) = .ok _ := AESCrypto.encrypt_eq.mpr ⟨input, taken, rfl⟩
  have fits : (AESCrypto.envelope iv (O.gcmSeal (aesKey secret) iv input).1
      (O.gcmSeal (aesKey secret) iv input).2).length ≤ Utils.dataLimit := by
    rw [AESCrypto.length_envelope, O.gcmSeal_length, cut]
    exact small
  have same := ((delivers secret _ derived encrypted fits).unique
    (transfer_concludes exchange derived ideal taken encrypted fits)).2
  rw [← Except.ok.inj same] at cut
  omega

theorem delivers (exchange : O.KeyExchange) (ideal : ∀ secret, O.derive sender (O.publicKey receiver) = some secret →
      O.Ideal (aesKey secret) iv message)
    (whole : message.length < 2 ^ 32 ∨ Utils.dataLimit < message.length % 2 ^ 32 + 28) :
    Delivers O sender receiver iv message := by
  intro secret data derived encrypted small
  obtain ⟨input, taken, rfl⟩ := AESCrypto.encrypt_eq.mp encrypted
  have ends := transfer_concludes exchange derived (ideal secret derived) taken encrypted small
  rcases whole with short | large
  · rwa [eq_of_updateInput short taken] at ends
  · rw [AESCrypto.length_envelope, O.gcmSeal_length, length_updateInput taken] at small
    omega

theorem authentic (exchange : O.KeyExchange) (ideal : ∀ secret, O.derive sender (O.publicKey receiver) = some secret →
      O.Ideal (aesKey secret) iv message)
    (whole : message.length < 2 ^ 32 ∨ Utils.dataLimit < message.length % 2 ^ 32 + 28) :
    Authentic O sender receiver message := by
  intro junk x e run
  obtain ⟨secret, derived, -⟩ := exchange.agree sender receiver
  rcases (handleClient_stream exchange derived (ideal secret derived) junk).run run with going | ⟨r, ended, post⟩
  · exact Or.inl going
  right
  rw [ended]
  rcases post with ⟨text, rfl⟩ | ⟨input, rfl, taken, small⟩
  · exact Or.inr ⟨text, rfl⟩
  · rcases whole with short | large
    · exact Or.inl (by rw [eq_of_updateInput short taken])
    · rw [length_updateInput taken] at small
      omega

/-- The transfer delivers the message and nothing else, for every schedule
and every encrypted frame, exactly when the length that the cipher is given
is that of the message, or no frame can carry what is sealed. -/
theorem transfer_iff (O : OpenSsl) (exchange : O.KeyExchange) (sender receiver : O.PrivateKey) (iv : FixedBytes 12)
    (message : List UInt8) (ideal : ∀ secret, O.derive sender (O.publicKey receiver) = some secret →
      O.Ideal (aesKey secret) iv message) :
    Delivers O sender receiver iv message ∧ Authentic O sender receiver message ↔
      message.length < 2 ^ 32 ∨ Utils.dataLimit < message.length % 2 ^ 32 + 28 := by
  refine ⟨fun ⟨sound, _⟩ => ?_, fun whole => ⟨delivers exchange ideal whole, authentic exchange ideal whole⟩⟩
  obtain ⟨secret, derived, -⟩ := exchange.agree sender receiver
  by_contra cut
  rw [not_or, Nat.not_lt, Nat.not_lt] at cut
  exact not_delivers exchange derived (ideal secret derived) cut.1 cut.2 sound

end Session

def sampleIv : FixedBytes 12 := ⟨List.replicate 12 7, List.length_replicate⟩

def sampleSecret (left right : UInt8) : FixedBytes 32 := ⟨List.replicate 32 (left * right), List.length_replicate⟩

theorem sampleSecret_comm (left right : UInt8) : sampleSecret left right = sampleSecret right left := by
  simp only [sampleSecret, UInt8.mul_comm left right]

/-- A one-byte key stream, with the initialization vector in the tag. -/
def sampleSeal (key : FixedBytes 32) (iv : FixedBytes 12) (plaintext : List UInt8) : List UInt8 × FixedBytes 16 :=
  (plaintext.map (key.bytes.headD 0 ^^^ ·), ⟨iv.bytes ++ [0, 0, 0, 0], by rw [List.length_append, iv.length_eq]; rfl⟩)

/-- Nothing opens but the message as sealed. -/
def sampleOpen (message : List UInt8) (key : FixedBytes 32) (iv : FixedBytes 12) (ciphertext : List UInt8)
    (tag : FixedBytes 16) : Option (List UInt8) :=
  (updateInput message).filter fun input => iv = sampleIv ∧ sampleSeal key iv input = (ciphertext, tag)

/-- Stand-ins for the OpenSSL calls: a key pair is a byte, the secret of two
repeats their product. -/
def sampleOpenSsl (message : List UInt8) : OpenSsl where
  PrivateKey := UInt8
  PublicKey := UInt8
  publicKey := id
  writePubkey key := [key]
  readPubkey := List.head?
  derive ecc peer := some (sampleSecret ecc peer)
  gcmSeal := sampleSeal
  gcmSeal_length _ _ _ := List.length_map ..
  gcmOpen := sampleOpen message

theorem sampleOpenSsl_exchange (message : List UInt8) : (sampleOpenSsl message).KeyExchange where
  import_export _ := rfl
  pem_small _ := show 1 ≤ 10 * 1024 * 1024 by decide
  agree left right := ⟨_, rfl, congrArg some (sampleSecret_comm right left)⟩

theorem sampleOpenSsl_ideal (message : List UInt8) (key : FixedBytes 32) :
    (sampleOpenSsl message).Ideal key sampleIv message := by
  intro iv ciphertext tag plaintext
  show (updateInput message).filter _ = some plaintext ↔ _
  rw [Option.filter_eq_some_iff, decide_eq_true_iff]
  refine and_congr_right fun _ => and_congr_right fun same => ?_
  rw [same]
  rfl

theorem transfer_two_bytes : Delivers (sampleOpenSsl [104, 105]) (5 : UInt8) (9 : UInt8) sampleIv [104, 105] ∧
    Authentic (sampleOpenSsl [104, 105]) (5 : UInt8) (9 : UInt8) [104, 105] :=
  (transfer_iff _ (sampleOpenSsl_exchange _) _ _ _ _ fun _ _ => sampleOpenSsl_ideal _ _).mpr (Or.inl (by decide))

/-- A message of 4 GiB is encrypted as an empty one. -/
theorem transfer_four_gib : ¬ (Delivers (sampleOpenSsl (List.replicate (2 ^ 32) 0)) (5 : UInt8) (9 : UInt8) sampleIv
    (List.replicate (2 ^ 32) 0) ∧
    Authentic (sampleOpenSsl (List.replicate (2 ^ 32) 0)) (5 : UInt8) (9 : UInt8) (List.replicate (2 ^ 32) 0)) := by
  have size : (List.replicate (2 ^ 32) (0 : UInt8)).length = 2 ^ 32 := List.length_replicate
  refine fun both => not_delivers (sampleOpenSsl_exchange _) rfl (sampleOpenSsl_ideal _ _) size.ge ?_ both.1
  rw [size]
  decide

end SecureExchange
