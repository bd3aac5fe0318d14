import SecureExchange.Library.FixedBytes
import SecureExchange.Library.Hex

namespace SecureExchange

/-- The hash and signature functions of the crates the node links against.
A signing key always yields a verifying key that is a valid curve point. -/
structure Primitives where
  keccak256 : List UInt8 → FixedBytes 32
  sha256 : List UInt8 → FixedBytes 32
  validPoint : FixedBytes 32 → Bool
  publicKey : FixedBytes 32 → FixedBytes 32
  publicKey_valid : ∀ secret, validPoint (publicKey secret) = true
  sign : FixedBytes 32 → List UInt8 → FixedBytes 64
  verify : FixedBytes 32 → List UInt8 → FixedBytes 64 → Bool

abbrev Address := FixedBytes 20

/-- `0x` and the lowercase hexadecimal digits of some bytes. -/
def hexString (bytes : List UInt8) : String :=
  String.ofList ('0' :: 'x' :: Hex.encode bytes)

theorem hexString_injective : Function.Injective hexString := by
  intro left right same
  have chars := String.ofList_inj.mp same
  simp only [List.cons.injEq, true_and] at chars
  exact Hex.encode_injective chars

/-- An Ed25519 public key that passed point decompression. -/
@[ext] structure VerifyingKey (C : Primitives) where
  asBytes : FixedBytes 32
  valid : C.validPoint asBytes = true
deriving DecidableEq

def VerifyingKey.fromBytes (C : Primitives) (bytes : FixedBytes 32) : Option (VerifyingKey C) :=
  if h : C.validPoint bytes = true then some ⟨bytes, h⟩ else none

/-- The last 20 bytes of the SHA-256 digest of a public key. -/
def deriveAddress {C : Primitives} (pubkey : VerifyingKey C) : Address :=
  FixedBytes.suffix (m := 12) 20 (C.sha256 pubkey.asBytes.bytes)

/-- A signing key together with the address its public key derives. -/
structure Wallet (C : Primitives) where
  signingKey : FixedBytes 32
  address : Address
  derived : address = deriveAddress (C := C) ⟨C.publicKey signingKey, C.publicKey_valid signingKey⟩
deriving DecidableEq

namespace Wallet
variable {C : Primitives}

def ofSigningKey (C : Primitives) (signingKey : FixedBytes 32) : Wallet C where
  signingKey
  address := deriveAddress ⟨C.publicKey signingKey, C.publicKey_valid signingKey⟩
  derived := rfl

def verifyingKey (w : Wallet C) : VerifyingKey C :=
  ⟨C.publicKey w.signingKey, C.publicKey_valid w.signingKey⟩

def publicKeyBytes (w : Wallet C) : FixedBytes 32 := w.verifyingKey.asBytes

def addressHex (w : Wallet C) : String := hexString w.address.bytes

def sign (w : Wallet C) (message : List UInt8) : FixedBytes 64 :=
  C.sign w.signingKey message

end Wallet

/-- Why a typed address is refused, with the text the node prints. -/
inductive AddressError where
  | invalidHex
  | wrongLength (got : Nat)
deriving DecidableEq, Repr

def AddressError.display : AddressError → String
  | .invalidHex => "Invalid hex address"
  | .wrongLength got => s!"Address must be 20 bytes, got {got}"

/-- Drop one leading `0x`. -/
def stripHexPrefix : List Char → List Char
  | '0' :: 'x' :: rest => rest
  | text => text

/-- A typed address, with or without its `0x`. -/
def addressFromHex (text : List Char) : Except AddressError Address :=
  match Hex.decode (stripHexPrefix text) with
  | none => .error .invalidHex
  | some bytes =>
    match FixedBytes.ofList? 20 bytes with
    | none => .error (.wrongLength bytes.length)
    | some address => .ok address

end SecureExchange
