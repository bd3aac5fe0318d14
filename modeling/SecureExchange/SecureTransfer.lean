import SecureExchange.Library.FixedBytes
import SecureExchange.Library.LittleEndian
import SecureExchange.Library.Process

namespace SecureExchange
open Process

/-- What the transfer program calls of OpenSSL: P-256 keys with their PEM
form, key derivation, and AES-256-GCM as one call each way. -/
structure OpenSsl where
  PrivateKey : Type
  PublicKey : Type
  publicKey : PrivateKey → PublicKey
  writePubkey : PublicKey → List UInt8
  readPubkey : List UInt8 → Option PublicKey
  derive : PrivateKey → PublicKey → Option (FixedBytes 32)
  gcmSeal : FixedBytes 32 → FixedBytes 12 → List UInt8 → List UInt8 × FixedBytes 16
  gcmSeal_length : ∀ key iv plaintext, (gcmSeal key iv plaintext).1.length = plaintext.length
  gcmOpen : FixedBytes 32 → FixedBytes 12 → List UInt8 → FixedBytes 16 → Option (List UInt8)

/-- A `size_t` passed as an `int`. -/
def toInt (n : Nat) : Int := (Int32.ofNat n).toInt

/-- What an EVP update call takes of a buffer when it is passed its size:
as many bytes as the `int` says. It fails on a negative one. -/
def updateInput (data : List UInt8) : Option (List UInt8) :=
  if toInt data.length < 0 then none else some (data.take (toInt data.length).toNat)

namespace Utils

/-- The loop of `sendData`, at an offset. -/
def sendRest (data : List UInt8) (sent : Nat) : Proc Bool :=
  if sent < data.length then
    .send (data.drop sent) fun n => if n = 0 then .ret false else sendRest data (sent + n)
  else .ret true
termination_by data.length - sent

/-- The length goes first, as a `uint32_t` in the byte order of the host. -/
def sendData (data : List UInt8) : Proc Bool :=
  .send (LittleEndian.encode 4 (data.length % 2 ^ 32)) fun n => if n ≠ 4 then .ret false else sendRest data 0

/-- The loop of `receiveData`, with what has been received. -/
def receiveRest (len : Nat) (received : List UInt8) : Proc (List UInt8) :=
  if received.length < len then
    .recv false (len - received.length) fun chunk =>
      if chunk = [] then .throw "Failed to receive data" else receiveRest len (received ++ chunk)
  else .ret received
termination_by len - received.length
decreasing_by
  rename_i some
  have positive := List.length_pos_of_ne_nil some
  rw [List.length_append]
  omega

def dataLimit : Nat := 10 * 1024 * 1024

def receiveData : Proc (List UInt8) :=
  .recv true 4 fun len =>
    if len.length ≠ 4 then .throw "Failed to receive data length"
    else if LittleEndian.value len > dataLimit then .throw "Data size too large"
    else receiveRest (LittleEndian.value len) []

def sendString (str : List UInt8) : Proc Bool := sendData str

def receiveString : Proc (List UInt8) := receiveData

end Utils

namespace AESCrypto

def encrypt (O : OpenSsl) (iv : FixedBytes 12) (plaintext : List UInt8) (key : FixedBytes 32) :
    Except String (List UInt8) :=
  match updateInput plaintext with
  | none => .error "Encryption failed"
  | some input =>
    let (ciphertext, tag) := O.gcmSeal key iv input
    .ok (iv.bytes ++ ciphertext ++ tag.bytes)

def decrypt (O : OpenSsl) (encryptedData : List UInt8) (key : FixedBytes 32) : Except String (List UInt8) :=
  if h : encryptedData.length < 12 + 16 then .error "Encrypted data too small"
  else
    let iv : FixedBytes 12 := ⟨encryptedData.take 12, by rw [List.length_take]; omega⟩
    let tag : FixedBytes 16 := ⟨encryptedData.drop (encryptedData.length - 16), by rw [List.length_drop]; omega⟩
    let ciphertext := (encryptedData.take (encryptedData.length - 16)).drop 12
    match updateInput ciphertext with
    | none => .error "Decryption failed"
    | some input =>
      match O.gcmOpen key iv input tag with
      | none => .error "Authentication failed: data has been tampered!"
      | some plaintext => .ok plaintext

end AESCrypto

namespace ECCCrypto

def exportPublicKey (O : OpenSsl) (ecc : O.PrivateKey) : List UInt8 := O.writePubkey (O.publicKey ecc)

def importPublicKey (O : OpenSsl) (pem : List UInt8) : Except String O.PublicKey :=
  match O.readPubkey pem with
  | none => .error "Failed to read public key"
  | some key => .ok key

/-- A peer key of another curve is refused. -/
def deriveSharedSecret (O : OpenSsl) (ecc : O.PrivateKey) (peerPublicKey : O.PublicKey) :
    Except String (FixedBytes 32) :=
  match O.derive ecc peerPublicKey with
  | none => .error "Failed to set peer public key"
  | some secret => .ok secret

end ECCCrypto

/-- The first 32 bytes of the shared secret. -/
def aesKey (sharedSecret : FixedBytes 32) : FixedBytes 32 :=
  ⟨sharedSecret.bytes.take 32, by rw [List.length_take, sharedSecret.length_eq]; rfl⟩

/-- The receiver on an accepted connection, with its new key pair. The
result is the message it prints. -/
def SecureReceiver.handleClient (O : OpenSsl) (ecc : O.PrivateKey) : Proc (List UInt8) := do
  let sent ← Utils.sendString (ECCCrypto.exportPublicKey O ecc)
  if !sent then .throw "Failed to send public key"
  else do
    let peerPublicKeyPem ← Utils.receiveString
    let peerPublicKey ← .ofExcept (ECCCrypto.importPublicKey O peerPublicKeyPem)
    let sharedSecret ← .ofExcept (ECCCrypto.deriveSharedSecret O ecc peerPublicKey)
    let encryptedData ← Utils.receiveData
    .ofExcept (AESCrypto.decrypt O encryptedData (aesKey sharedSecret))

/-- The sender on an established connection, with its new key pair and the
random bytes of its initialization vector. -/
def SecureSender.performSecureTransfer (O : OpenSsl) (ecc : O.PrivateKey) (iv : FixedBytes 12)
    (message : List UInt8) : Proc Unit := do
  let peerPublicKeyPem ← Utils.receiveString
  let sent ← Utils.sendString (ECCCrypto.exportPublicKey O ecc)
  if !sent then .throw "Failed to send public key"
  else do
    let peerPublicKey ← .ofExcept (ECCCrypto.importPublicKey O peerPublicKeyPem)
    let sharedSecret ← .ofExcept (ECCCrypto.deriveSharedSecret O ecc peerPublicKey)
    let encryptedData ← .ofExcept (AESCrypto.encrypt O iv message (aesKey sharedSecret))
    let sent ← Utils.sendData encryptedData
    if !sent then .throw "Failed to send encrypted data"
    else return ()

end SecureExchange
