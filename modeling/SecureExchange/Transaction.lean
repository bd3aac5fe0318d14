import SecureExchange.Library.RlpReader
import SecureExchange.Wallet

namespace SecureExchange

/-- A signed transfer as peers exchange it. -/
@[ext] structure SignedTransaction where
  fromAddr : Address
  toAddr : Address
  amount : UInt64
  nonce : UInt64
  timestamp : UInt64
  pubkey : FixedBytes 32
  signature : FixedBytes 64
deriving DecidableEq

def unsignedItems (fromAddr toAddr : Address) (amount nonce timestamp : UInt64) : List (List UInt8) :=
  [Rlp.encodeValue fromAddr.bytes, Rlp.encodeValue toAddr.bytes,
    Rlp.encodeU64 amount, Rlp.encodeU64 nonce, Rlp.encodeU64 timestamp]

/-- The RLP list of the five fields that a signature covers. -/
def unsignedRlp (fromAddr toAddr : Address) (amount nonce timestamp : UInt64) : List UInt8 :=
  Rlp.encodeList (unsignedItems fromAddr toAddr amount nonce timestamp)

def computeUnsignedDigest (C : Primitives) (fromAddr toAddr : Address)
    (amount nonce timestamp : UInt64) : List UInt8 :=
  (C.keccak256 (unsignedRlp fromAddr toAddr amount nonce timestamp)).bytes

/-- Why a transaction fails verification, with the text sent to the peer. -/
inductive VerifyError where
  | invalidPublicKey
  | addressMismatch (derived claimed : Address)
  | signatureFailed
deriving DecidableEq, Repr

def VerifyError.display : VerifyError → String
  | .invalidPublicKey => "Invalid Ed25519 public key in transaction"
  | .addressMismatch derived claimed =>
    "Address mismatch: pubkey derives to " ++ hexString derived.bytes ++
      ", but tx.from is " ++ hexString claimed.bytes
  | .signatureFailed => "Ed25519 signature verification failed"

namespace SignedTransaction

def create {C : Primitives} (wallet : Wallet C) (toAddr : Address)
    (amount nonce timestamp : UInt64) : SignedTransaction where
  fromAddr := wallet.address
  toAddr
  amount
  nonce
  timestamp
  pubkey := wallet.publicKeyBytes
  signature := wallet.sign (computeUnsignedDigest C wallet.address toAddr amount nonce timestamp)

def unsignedDigest (C : Primitives) (tx : SignedTransaction) : List UInt8 :=
  computeUnsignedDigest C tx.fromAddr tx.toAddr tx.amount tx.nonce tx.timestamp

/-- The checks of a transaction against itself. Balance and nonce order
are left to the ledger. -/
def verify (C : Primitives) (tx : SignedTransaction) : Except VerifyError Unit :=
  match VerifyingKey.fromBytes C tx.pubkey with
  | none => .error .invalidPublicKey
  | some key =>
    if deriveAddress key ≠ tx.fromAddr then
      .error (.addressMismatch (deriveAddress key) tx.fromAddr)
    else if C.verify key.asBytes (tx.unsignedDigest C) tx.signature then .ok ()
    else .error .signatureFailed

def rlpItems (tx : SignedTransaction) : List (List UInt8) :=
  [Rlp.encodeValue tx.fromAddr.bytes, Rlp.encodeValue tx.toAddr.bytes,
    Rlp.encodeU64 tx.amount, Rlp.encodeU64 tx.nonce, Rlp.encodeU64 tx.timestamp,
    Rlp.encodeValue tx.pubkey.bytes, Rlp.encodeValue tx.signature.bytes]

def toRlpBytes (tx : SignedTransaction) : List UInt8 :=
  Rlp.encodeList tx.rlpItems

/-- The transaction id that peers deduplicate by. -/
def hash (C : Primitives) (tx : SignedTransaction) : String :=
  hexString (C.keccak256 tx.toRlpBytes).bytes

/-- A fixed array out of decoded bytes. -/
def vecToArray (n : Nat) (bytes : List UInt8) : Except Rlp.DecoderError (FixedBytes n) :=
  match FixedBytes.ofList? n bytes with
  | some array => .ok array
  | none => .error (.custom "wrong byte length")

/-- The seven items by position; the lengths are checked after all of them
have been read. -/
def decode (rlp : List UInt8) : Rlp.Reader SignedTransaction := do
  let fromBytes ← Rlp.valueAt rlp 0
  let toBytes ← Rlp.valueAt rlp 1
  let amount ← Rlp.u64At rlp 2
  let nonce ← Rlp.u64At rlp 3
  let timestamp ← Rlp.u64At rlp 4
  let pubkeyBytes ← Rlp.valueAt rlp 5
  let sigBytes ← Rlp.valueAt rlp 6
  let fromAddr ← vecToArray 20 fromBytes
  let toAddr ← vecToArray 20 toBytes
  let pubkey ← vecToArray 32 pubkeyBytes
  let signature ← vecToArray 64 sigBytes
  return { fromAddr, toAddr, amount, nonce, timestamp, pubkey, signature }

def fromRlpBytes (data : List UInt8) : Except Rlp.DecoderError SignedTransaction := (decode data).run' none

theorem rlpItems_short (tx : SignedTransaction) : ∀ item ∈ tx.rlpItems, Rlp.Short item := by
  have array : ∀ {n : Nat} (a : FixedBytes n), n ≤ 246 → Rlp.Short (Rlp.encodeValue a.bytes) :=
    fun a small => Rlp.encodeValue_short (by rw [a.length_eq]; exact small)
  simp only [rlpItems, List.forall_mem_cons]
  exact ⟨array _ (by omega), array _ (by omega), Rlp.encodeU64_short _, Rlp.encodeU64_short _,
    Rlp.encodeU64_short _, array _ (by omega), array _ (by omega), by simp⟩

theorem rlpItems_flatten_lt (tx : SignedTransaction) : tx.rlpItems.flatten.length < 256 ^ 8 := by
  have length := Rlp.flatten_length_le tx.rlpItems_short
  have seven : tx.rlpItems.length = 7 := rfl
  omega

theorem rlpItems_append (tx : SignedTransaction) (trailing : List UInt8) : tx.rlpItems.flatten ++ trailing =
    Rlp.encodeValue tx.fromAddr.bytes ++ (Rlp.encodeValue tx.toAddr.bytes ++ (Rlp.encodeU64 tx.amount ++
      (Rlp.encodeU64 tx.nonce ++ (Rlp.encodeU64 tx.timestamp ++ (Rlp.encodeValue tx.pubkey.bytes ++
        (Rlp.encodeValue tx.signature.bytes ++ trailing)))))) := by
  simp only [rlpItems, List.flatten_cons, List.flatten_nil, List.append_nil, List.append_assoc]

theorem encodeValue_address_length (a : Address) : (Rlp.encodeValue a.bytes).length = 21 := by
  rcases Rlp.valueHeader_cases a.bytes with ⟨b, single, _, _⟩ | ⟨_, header⟩
  · have length := a.length_eq
    rw [single] at length
    cases length
  · rw [Rlp.encodeValue, header, List.length_append, a.length_eq]
    rfl

@[simp] theorem vecToArray_bytes {n : Nat} (a : FixedBytes n) : vecToArray n a.bytes = .ok a := by
  simp only [vecToArray, FixedBytes.ofList?_bytes]

/-- The length checks pass on the fields of a transaction. -/
theorem toArrays (tx : SignedTransaction) (cache : Option Rlp.OffsetCache) :
    (do
      let fromAddr ← vecToArray 20 tx.fromAddr.bytes
      let toAddr ← vecToArray 20 tx.toAddr.bytes
      let pubkey ← vecToArray 32 tx.pubkey.bytes
      let signature ← vecToArray 64 tx.signature.bytes
      return { tx with fromAddr, toAddr, pubkey, signature } : Rlp.Reader SignedTransaction) cache = .ok (tx, cache) := by
  simp only [vecToArray_bytes]
  rfl

theorem bytes_fit {n : Nat} (a : FixedBytes n) (small : n ≤ 246) : Rlp.byteString.Fits a.bytes := by
  show a.bytes.length < 256 ^ 8
  rw [a.length_eq]
  omega

/-- Once the first item has been read, the others are read one after the other. -/
theorem decode_standing (tx : SignedTransaction) {data trailing : List UInt8} {cache : Option Rlp.OffsetCache}
    (first : Rlp.valueAt data 0 none = .ok (tx.fromAddr.bytes, cache))
    (standing : Rlp.Standing data cache 0 (Rlp.encodeValue tx.toAddr.bytes ++ (Rlp.encodeU64 tx.amount ++
      (Rlp.encodeU64 tx.nonce ++ (Rlp.encodeU64 tx.timestamp ++ (Rlp.encodeValue tx.pubkey.bytes ++
        (Rlp.encodeValue tx.signature.bytes ++ trailing))))))) :
    ∃ last, decode data none = .ok (tx, last) := by
  obtain ⟨c1, r1, s1⟩ := standing.read (c := Rlp.byteString) (bytes_fit tx.toAddr (by omega))
  obtain ⟨c2, r2, s2⟩ := s1.read (c := Rlp.integer) trivial
  obtain ⟨c3, r3, s3⟩ := s2.read (c := Rlp.integer) trivial
  obtain ⟨c4, r4, s4⟩ := s3.read (c := Rlp.integer) trivial
  obtain ⟨c5, r5, s5⟩ := s4.read (c := Rlp.byteString) (bytes_fit tx.pubkey (by omega))
  obtain ⟨c6, r6, _⟩ := s5.read (c := Rlp.byteString) (bytes_fit tx.signature (by omega))
  refine ⟨c6, (Rlp.Reader.bind_ok first).trans ?_⟩
  refine (Rlp.Reader.bind_ok r1).trans ?_
  refine (Rlp.Reader.bind_ok r2).trans ?_
  refine (Rlp.Reader.bind_ok r3).trans ?_
  refine (Rlp.Reader.bind_ok r4).trans ?_
  refine (Rlp.Reader.bind_ok r5).trans ?_
  refine (Rlp.Reader.bind_ok r6).trans ?_
  exact tx.toArrays c6

/-- The items of a transaction are read back behind any list header that
announces at least the first of them and at most the bytes there are. -/
theorem fromRlpBytes_behind (tx : SignedTransaction) {len : Nat} {trailing : List UInt8} (bound : len < 256 ^ 8)
    (first : 21 ≤ len) (inside : len ≤ (tx.rlpItems.flatten ++ trailing).length) :
    fromRlpBytes (Rlp.lengthHeader 0xc0 0xf7 len ++ (tx.rlpItems.flatten ++ trailing)) = .ok tx := by
  rw [tx.rlpItems_append] at inside ⊢
  rw [← encodeValue_address_length tx.fromAddr] at first
  obtain ⟨c0, r0, s0⟩ := Rlp.first_read (c := Rlp.byteString) (bytes_fit tx.fromAddr (by omega)) bound first inside
  obtain ⟨last, decoded⟩ := tx.decode_standing r0 s0
  exact congrArg (Functor.map Prod.fst) decoded

/-- Decoding what was encoded gives the transaction back, also when other
bytes stand behind it. -/
theorem fromRlpBytes_append (tx : SignedTransaction) (trailing : List UInt8) :
    fromRlpBytes (tx.toRlpBytes ++ trailing) = .ok tx := by
  have first : 21 ≤ tx.rlpItems.flatten.length := by
    have front := congrArg List.length (tx.rlpItems_append [])
    rw [List.append_nil, List.length_append, encodeValue_address_length] at front
    omega
  rw [toRlpBytes, Rlp.encodeList, List.append_assoc]
  exact tx.fromRlpBytes_behind tx.rlpItems_flatten_lt first (by rw [List.length_append]; omega)

theorem fromRlpBytes_encoded (tx : SignedTransaction) : fromRlpBytes tx.toRlpBytes = .ok tx := by
  simpa using tx.fromRlpBytes_append []

theorem toRlpBytes_inj {left right : SignedTransaction} (same : left.toRlpBytes = right.toRlpBytes) :
    left = right := by
  have read := left.fromRlpBytes_encoded
  rw [same, right.fromRlpBytes_encoded] at read
  exact (Except.ok.inj read).symm

end SignedTransaction

theorem unsignedItems_short (fromAddr toAddr : Address) (amount nonce timestamp : UInt64) :
    ∀ item ∈ unsignedItems fromAddr toAddr amount nonce timestamp, Rlp.Short item := by
  have array : ∀ a : Address, Rlp.Short (Rlp.encodeValue a.bytes) :=
    fun a => Rlp.encodeValue_short (by rw [a.length_eq]; omega)
  simp only [unsignedItems, List.forall_mem_cons]
  exact ⟨array _, array _, Rlp.encodeU64_short _, Rlp.encodeU64_short _, Rlp.encodeU64_short _, by simp⟩

theorem encodeValue_address_inj {a b : Address} (same : Rlp.encodeValue a.bytes = Rlp.encodeValue b.bytes) : a = b :=
  FixedBytes.ext (Rlp.encodeValue_inj (SignedTransaction.bytes_fit a (by omega)) (SignedTransaction.bytes_fit b (by omega))
    same)

/-- The signed part fixes all five fields: adjacent integers cannot trade bytes. -/
theorem unsignedRlp_inj {fromAddr toAddr fromAddr' toAddr' : Address}
    {amount nonce timestamp amount' nonce' timestamp' : UInt64}
    (same : unsignedRlp fromAddr toAddr amount nonce timestamp =
      unsignedRlp fromAddr' toAddr' amount' nonce' timestamp') :
    fromAddr = fromAddr' ∧ toAddr = toAddr' ∧ amount = amount' ∧ nonce = nonce' ∧
      timestamp = timestamp' := by
  have delimited := fun item member => (unsignedItems_short fromAddr toAddr amount nonce timestamp item member).1
  have delimited' := fun item member => (unsignedItems_short fromAddr' toAddr' amount' nonce' timestamp' item member).1
  have small := Rlp.flatten_length_le (unsignedItems_short fromAddr toAddr amount nonce timestamp)
  have small' := Rlp.flatten_length_le (unsignedItems_short fromAddr' toAddr' amount' nonce' timestamp')
  have five : (unsignedItems fromAddr toAddr amount nonce timestamp).length = 5 := rfl
  have five' : (unsignedItems fromAddr' toAddr' amount' nonce' timestamp').length = 5 := rfl
  have items := Rlp.encodeList_inj delimited delimited' rfl (by omega) (by omega) same
  simp only [unsignedItems, List.cons.injEq, and_true] at items
  obtain ⟨from_, to_, amount_, nonce_, timestamp_⟩ := items
  exact ⟨encodeValue_address_inj from_, encodeValue_address_inj to_, Rlp.encodeU64_inj amount_, Rlp.encodeU64_inj nonce_,
    Rlp.encodeU64_inj timestamp_⟩

end SecureExchange
