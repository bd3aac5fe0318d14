import SecureExchange.Library.Buffer
import SecureExchange.SecureTransfer

namespace SecureExchange

/-- The OpenSSL calls on a cipher context for AES-256-GCM; `none` is a
failure. An update call is passed a buffer and the `int` number of bytes to
take of it, and like a final call it gives the bytes that it writes. -/
structure Evp where
  Context : Type
  new : Option Context
  blockSize : Context → Nat
  setIvLen : Context → Nat → Option Context
  encryptInit : Context → Option Context
  encryptKeyIv : Context → FixedBytes 32 → FixedBytes 12 → Option Context
  encryptUpdate : Context → List UInt8 → Int → Option (Context × List UInt8)
  encryptFinal : Context → Option (Context × List UInt8)
  getTag : Context → Option (FixedBytes 16)
  decryptInit : Context → Option Context
  decryptKeyIv : Context → FixedBytes 32 → FixedBytes 12 → Option Context
  decryptUpdate : Context → List UInt8 → Int → Option (Context × List UInt8)
  setTag : Context → FixedBytes 16 → Option Context
  decryptFinal : Context → Option (Context × List UInt8)

/-- How a cipher function fails: with an exception, or by writing beyond
the end of a buffer. -/
inductive Failure where
  | thrown (message : String)
  | overrun
deriving DecidableEq, Repr

/-- A call whose failure is thrown with a message. -/
def attempt {α : Type} (call : Option α) (message : String) : Except Failure α :=
  match call with
  | some a => .ok a
  | none => .error (.thrown message)

/-- A write that has to stay within its buffer. -/
def bounded {α : Type} (write : Option α) : Except Failure α :=
  match write with
  | some buffer => .ok buffer
  | none => .error .overrun

@[simp] theorem attempt_some_bind {α β : Type} (a : α) (message : String) (k : α → Except Failure β) :
    (attempt (some a) message >>= k) = k a := rfl

@[simp] theorem attempt_none_bind {α β : Type} (message : String) (k : α → Except Failure β) :
    (attempt none message >>= k) = .error (.thrown message) := rfl

@[simp] theorem bounded_some_bind {α β : Type} (a : α) (k : α → Except Failure β) :
    (bounded (some a) >>= k) = k a := rfl

namespace Evp

/-- The encryption that both programs have. The initialization vector is
what `RAND_bytes` gives. -/
def encrypt (E : Evp) (random : Option (FixedBytes 12)) (plaintext : List UInt8) (key : FixedBytes 32) :
    Except Failure (List UInt8) := do
  let iv ← attempt random "Failed to generate IV"
  let ctx ← attempt E.new "Failed to create cipher context"
  let ctx ← attempt (E.encryptInit ctx) "Failed to initialize encryption"
  let ctx ← attempt (E.setIvLen ctx 12) "Failed to set IV length"
  let ctx ← attempt (E.encryptKeyIv ctx key iv) "Failed to set key and IV"
  let ciphertext := List.replicate (plaintext.length + E.blockSize ctx) 0
  let (ctx, output) ← attempt (E.encryptUpdate ctx plaintext (toInt plaintext.length)) "Encryption failed"
  let ciphertext ← bounded (Buffer.store ciphertext 0 output)
  let (ctx, last) ← attempt (E.encryptFinal ctx) "Encryption finalization failed"
  let ciphertext ← bounded (Buffer.store ciphertext output.length last)
  let ciphertext := Buffer.resize 0 ciphertext (output.length + last.length)
  let tag ← attempt (E.getTag ctx) "Failed to get authentication tag"
  return iv.bytes ++ ciphertext ++ tag.bytes

theorem length_first {data : List UInt8} (enough : ¬ data.length < 12 + 16) : (data.take 12).length = 12 :=
  List.length_take_of_le (by omega)

theorem length_last {data : List UInt8} (enough : ¬ data.length < 12 + 16) :
    (data.drop (data.length - 16)).length = 16 := by
  rw [List.length_drop]
  omega

/-- The decryption of both programs, which differ in what they say of a
wrong tag. -/
def decrypt (mismatch : String) (E : Evp) (encryptedData : List UInt8) (key : FixedBytes 32) :
    Except Failure (List UInt8) :=
  if h : encryptedData.length < 12 + 16 then .error (.thrown "Encrypted data too small")
  else do
    let iv : FixedBytes 12 := ⟨encryptedData.take 12, length_first h⟩
    let tag : FixedBytes 16 := ⟨encryptedData.drop (encryptedData.length - 16), length_last h⟩
    let ciphertext := (encryptedData.take (encryptedData.length - 16)).drop 12
    let ctx ← attempt E.new "Failed to create cipher context"
    let ctx ← attempt (E.decryptInit ctx) "Failed to initialize decryption"
    let ctx ← attempt (E.setIvLen ctx 12) "Failed to set IV length"
    let ctx ← attempt (E.decryptKeyIv ctx key iv) "Failed to set key and IV"
    let plaintext := List.replicate ciphertext.length 0
    let (ctx, output) ← attempt (E.decryptUpdate ctx ciphertext (toInt ciphertext.length)) "Decryption failed"
    let plaintext ← bounded (Buffer.store plaintext 0 output)
    let ctx ← attempt (E.setTag ctx tag) "Failed to set authentication tag"
    let (_, last) ← attempt (E.decryptFinal ctx) mismatch
    let plaintext ← bounded (Buffer.store plaintext output.length last)
    return Buffer.resize 0 plaintext (output.length + last.length)

end Evp

namespace SecureTransfer.AESCrypto

def encrypt (E : Evp) (random : Option (FixedBytes 12)) (plaintext : List UInt8) (key : FixedBytes 32) :
    Except Failure (List UInt8) := E.encrypt random plaintext key

def decrypt (E : Evp) (encryptedData : List UInt8) (key : FixedBytes 32) : Except Failure (List UInt8) :=
  E.decrypt "Authentication failed: data has been tampered!" encryptedData key

end SecureTransfer.AESCrypto

namespace CryptoCore.AESCrypto

def encrypt (E : Evp) (random : Option (FixedBytes 12)) (plaintext : List UInt8) (key : FixedBytes 32) :
    Except Failure (List UInt8) := E.encrypt random plaintext key

def decrypt (E : Evp) (encryptedData : List UInt8) (key : FixedBytes 32) : Except Failure (List UInt8) :=
  E.decrypt "Decryption failed: authentication tag mismatch (data tampered!)" encryptedData key

end CryptoCore.AESCrypto

end SecureExchange
