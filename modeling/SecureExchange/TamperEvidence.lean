import SecureExchange.Sample

namespace SecureExchange
namespace SignedTransaction

/-- What a verified transaction went through. -/
theorem verify_inv {C : Primitives} {tx : SignedTransaction} (verified : tx.verify C = .ok ()) :
    (∃ key : VerifyingKey C, key.asBytes = tx.pubkey ∧ deriveAddress key = tx.fromAddr) ∧
      C.verify tx.pubkey (tx.unsignedDigest C) tx.signature = true := by
  unfold verify at verified
  split at verified
  · cases verified
  · rename_i key found
    have bytes : key.asBytes = tx.pubkey := by
      unfold VerifyingKey.fromBytes at found
      split at found
      · cases found
        rfl
      · cases found
    split at verified
    · cases verified
    rename_i bound
    split at verified
    · rename_i signed
      rw [bytes] at signed
      exact ⟨⟨key, bytes, Classical.not_not.mp bound⟩, signed⟩
    · cases verified

theorem unsignedDigest_bytes (C : Primitives) (tx : SignedTransaction) : tx.unsignedDigest C =
    (C.keccak256 (unsignedRlp tx.fromAddr tx.toAddr tx.amount tx.nonce tx.timestamp)).bytes := rfl

/-- Two verified transactions with one signature have one digest, hence one
signed part, and one key. -/
theorem eq_of_verified {C : Primitives} {left right : SignedTransaction} (same : left.signature = right.signature)
    (distinct : C.keccak256 (unsignedRlp left.fromAddr left.toAddr left.amount left.nonce left.timestamp) =
        C.keccak256 (unsignedRlp right.fromAddr right.toAddr right.amount right.nonce right.timestamp) →
      unsignedRlp left.fromAddr left.toAddr left.amount left.nonce left.timestamp =
        unsignedRlp right.fromAddr right.toAddr right.amount right.nonce right.timestamp)
    (unique : ∀ (key key' digest digest' : FixedBytes 32), C.verify key digest.bytes left.signature = true →
      C.verify key' digest'.bytes left.signature = true → key = key' ∧ digest = digest')
    (verified : left.verify C = .ok ()) (verified' : right.verify C = .ok ()) : left = right := by
  obtain ⟨_, signed⟩ := verify_inv verified
  obtain ⟨_, signed'⟩ := verify_inv verified'
  rw [unsignedDigest_bytes] at signed signed'
  rw [← same] at signed'
  obtain ⟨keys, digests⟩ := unique _ _ _ _ signed signed'
  obtain ⟨from_, to_, amount, nonce, timestamp⟩ := unsignedRlp_inj (distinct digests)
  exact SignedTransaction.ext from_ to_ amount nonce timestamp keys same

/-- Under one signature at most one transaction verifies, so changing any
of the other fields of a verified one makes verification fail. -/
theorem tamper_evident {C : Primitives} (left right : SignedTransaction) (same : left.signature = right.signature)
    (distinct : C.keccak256 (unsignedRlp left.fromAddr left.toAddr left.amount left.nonce left.timestamp) =
        C.keccak256 (unsignedRlp right.fromAddr right.toAddr right.amount right.nonce right.timestamp) →
      unsignedRlp left.fromAddr left.toAddr left.amount left.nonce left.timestamp =
        unsignedRlp right.fromAddr right.toAddr right.amount right.nonce right.timestamp)
    (unique : ∀ (key key' digest digest' : FixedBytes 32), C.verify key digest.bytes left.signature = true →
      C.verify key' digest'.bytes left.signature = true → key = key' ∧ digest = digest') :
    (left.verify C = .ok () → right.verify C = .ok () →
        left.fromAddr = right.fromAddr ∧ left.toAddr = right.toAddr ∧ left.amount = right.amount ∧
          left.nonce = right.nonce ∧ left.timestamp = right.timestamp ∧ left.pubkey = right.pubkey) ∧
      (left.verify C = .ok () → left ≠ right → ∃ e, right.verify C = .error e) := by
  constructor
  · intro verified verified'
    rw [eq_of_verified same distinct unique verified verified']
    exact ⟨rfl, rfl, rfl, rfl, rfl, rfl⟩
  · intro verified different
    cases outcome : right.verify C with
    | error e => exact ⟨e, rfl⟩
    | ok =>
      exact absurd (eq_of_verified same distinct unique verified outcome) different

/-- A stand-in signature spells out its key and its digest. -/
theorem samplePrimitives_unique {signature : FixedBytes 64} (key key' digest digest' : FixedBytes 32)
    (left : samplePrimitives.verify key digest.bytes signature = true)
    (right : samplePrimitives.verify key' digest'.bytes signature = true) : key = key' ∧ digest = digest' := by
  have spelled : ∀ k d : FixedBytes 32, samplePrimitives.verify k d.bytes signature = true →
      signature.bytes = k.bytes ++ d.bytes := by
    intro k d valid
    have whole : (k.bytes ++ d.bytes).length = 64 := by rw [List.length_append, k.length_eq, d.length_eq]
    rw [of_decide_eq_true valid, fixedPrefix]
    exact List.take_left' whole
  have same : key.bytes ++ digest.bytes = key'.bytes ++ digest'.bytes := by
    rw [← spelled key digest left, ← spelled key' digest' right]
  obtain ⟨keys, digests⟩ := List.append_inj same (by rw [key.length_eq, key'.length_eq])
  exact ⟨FixedBytes.ext keys, FixedBytes.ext digests⟩

/-- A payment of 30, raised to 31 under its old signature. -/
theorem tamper_evident_samplePayment : (samplePayment 30 0).verify samplePrimitives = .ok () ∧
    ∃ e, ({ samplePayment 30 0 with amount := 31 } : SignedTransaction).verify samplePrimitives = .error e :=
  ⟨by decide +kernel,
    (tamper_evident (samplePayment 30 0) { samplePayment 30 0 with amount := 31 } rfl
      (fun collision => absurd collision (by decide +kernel)) samplePrimitives_unique).2
      (by decide +kernel) (by decide +kernel)⟩

end SignedTransaction
end SecureExchange
