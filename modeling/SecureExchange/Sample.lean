import Mathlib.Data.Fin.VecNotation
import SecureExchange.Node

namespace SecureExchange

/-- Bytes cut or filled up with zeros to a fixed length. -/
def fixedPrefix (n : Nat) (bytes : List UInt8) : FixedBytes n :=
  ⟨(bytes ++ List.replicate n 0).take n, by simp⟩

/-- A polynomial digest of 256 bits. -/
def sampleDigest (bytes : List UInt8) : FixedBytes 32 :=
  let h := bytes.foldl (fun h b => (h * 257 + b.toNat + 1) % 2 ^ 256) 0
  ⟨(List.range 32).map fun i => UInt8.ofNat (h / 256 ^ (31 - i)), by simp⟩

/-- Computable stand-ins for the hash and signature functions: a key is its
own public key, and a signature is the key followed by the signed digest. -/
def samplePrimitives : Primitives where
  keccak256 := sampleDigest
  sha256 := fixedPrefix 32
  validPoint := fun _ => true
  publicKey := id
  publicKey_valid := fun _ => rfl
  sign := fun secret message => fixedPrefix 64 (secret.bytes ++ message)
  verify := fun key message signature => signature = fixedPrefix 64 (key.bytes ++ message)

/-- A stand-in signature verifies under no key but the one that made it. -/
theorem samplePrimitives_signer {key secret : FixedBytes 32} {message : List UInt8}
    (valid : samplePrimitives.verify key message (samplePrimitives.sign secret message) = true) :
    key = secret := by
  have same : fixedPrefix 64 (secret.bytes ++ message) = fixedPrefix 64 (key.bytes ++ message) :=
    of_decide_eq_true valid
  have start : ∀ k : FixedBytes 32, (fixedPrefix 64 (k.bytes ++ message)).bytes.take 32 = k.bytes := by
    intro k
    simp only [fixedPrefix, List.take_take, List.append_assoc]
    exact List.take_left' k.length_eq
  have prefixes := congrArg (fun b : FixedBytes 64 => b.bytes.take 32) same
  simp only [start] at prefixes
  exact (FixedBytes.ext prefixes).symm

/-- The wallet whose key repeats one byte. -/
def sampleWallet (b : UInt8) : Wallet samplePrimitives :=
  .ofSigningKey _ ⟨List.replicate 32 b, List.length_replicate⟩

/-- The command of a payment of 30 to wallet 1. -/
def sampleLine : String := "send 0x0101010101010101010101010101010101010101 30"

def payer : Fin 2 := 0

def payee : Fin 2 := 1

/-- A payer and a payee. -/
def samplePair : Fin 2 → Wallet samplePrimitives := ![sampleWallet 2, sampleWallet 1]

/-- A first payment of wallet 2 to wallet 1. -/
def samplePayment (amount timestamp : UInt64) : SignedTransaction :=
  .create (sampleWallet 2) (sampleWallet 1).address amount 0 timestamp

end SecureExchange
