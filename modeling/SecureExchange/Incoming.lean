import SecureExchange.Delivery

namespace SecureExchange
open Reactive

/-- The five fields that a signature covers. -/
structure Payload where
  fromAddr : Address
  toAddr : Address
  amount : UInt64
  nonce : UInt64
  timestamp : UInt64
deriving DecidableEq

namespace Payload

def rlp (m : Payload) : List UInt8 := unsignedRlp m.fromAddr m.toAddr m.amount m.nonce m.timestamp

def digest (C : Primitives) (m : Payload) : List UInt8 :=
  computeUnsignedDigest C m.fromAddr m.toAddr m.amount m.nonce m.timestamp

theorem rlp_injective : Function.Injective rlp := by
  intro left right same
  obtain ⟨fromAddr, toAddr, amount, nonce, timestamp⟩ := unsignedRlp_inj same
  cases left
  cases right
  simp only at fromAddr toAddr amount nonce timestamp
  rw [fromAddr, toAddr, amount, nonce, timestamp]

end Payload

def SignedTransaction.payload (tx : SignedTransaction) : Payload :=
  ⟨tx.fromAddr, tx.toAddr, tx.amount, tx.nonce, tx.timestamp⟩

/-- What the holders of keys have signed. -/
abbrev SigningLog (C : Primitives) := VerifyingKey C → Payload → Prop

namespace SigningLog
variable {C : Primitives}

/-- No signature among the transactions is forged: one that verifies under
a key for a digest was made by the holder of the key for that digest. -/
def Unforged (signed : SigningLog C) (txs : List SignedTransaction) : Prop :=
  ∀ tx ∈ txs, ∀ key : VerifyingKey C, C.verify key.asBytes (tx.unsignedDigest C) tx.signature = true →
    ∃ m, signed key m ∧ m.digest C = tx.unsignedDigest C

/-- Keccak-256 separates what was signed from what the transactions say. -/
def DigestsDiffer (signed : SigningLog C) (txs : List SignedTransaction) : Prop :=
  ∀ key m, signed key m → ∀ tx ∈ txs,
    C.keccak256 m.rlp = C.keccak256 tx.payload.rlp → m.rlp = tx.payload.rlp

/-- The keys that signed anything are among some keys with distinct addresses. -/
def AddressesDiffer (signed : SigningLog C) (keys : Set (VerifyingKey C)) : Prop :=
  (∀ key m, signed key m → key ∈ keys) ∧ Set.InjOn deriveAddress keys

end SigningLog

/-- A transaction that verifies carries exactly what the holder of its
sender's key signed. -/
theorem signed_of_verified {C : Primitives} {signed : SigningLog C} {txs : List SignedTransaction}
    {tx : SignedTransaction} (unforged : signed.Unforged txs) (differ : signed.DigestsDiffer txs)
    (among : tx ∈ txs) (verified : tx.Verified C) :
    ∃ key, signed key tx.payload ∧ deriveAddress key = tx.fromAddr := by
  unfold SignedTransaction.Verified SignedTransaction.verify at verified
  split at verified
  · cases verified
  · rename_i key _
    split at verified
    · cases verified
    · rename_i bound
      split at verified
      · rename_i valid
        obtain ⟨m, signs, sameDigest⟩ := unforged tx among key valid
        have sameBytes := differ key m signs tx among (FixedBytes.ext sameDigest)
        rw [Payload.rlp_injective sameBytes] at signs
        exact ⟨key, signs, not_not.mp bound⟩
      · cases verified

namespace Node
variable {C : Primitives} {Peer : Type}

/-- Bytes that the network delivers on either channel. -/
def Delivers (data : List UInt8) : Event Peer → Prop
  | .gossip received => received = data
  | .transferRequest _ request => request.txRlp = data
  | _ => False

variable [DecidableEq Peer]

/-- What the network delivers changes the own account only by crediting. -/
theorem ledger_of_unadmitted {p : Profile} {n : Node C Peer} {ev : Event Peer}
    (network : ∀ line now publishOk, ev ≠ .stdin line now publishOk) (unadmitted : n.admitted ev = none) :
    (n.handle p ev).halted = false ∧ (n.handle p ev).state.ledger = n.ledger := by
  have unpaid : n.paymentOf ev = none :=
    paymentOf_eq_none fun line now publishOk same => absurd same (network line now publishOk)
  obtain ⟨live, ledger, _⟩ := handle_of_idle p unpaid unadmitted
  exact ⟨live, ledger⟩

theorem ownFunds_of_ledger {p : Profile} {n : Node C Peer} {ev : Event Peer}
    (same : (n.handle p ev).state.ledger = n.ledger) : (n.handle p ev).state.ownFunds = n.ownFunds := by
  rw [ownFunds, ownFunds, same, wallet_handle]

/-- A checked build survives a payload, and a wrapping build keeps the own
balance from falling, exactly when the amount it is made to credit fits
beside the balance. -/
theorem payload_harmless_iff {n : Node C Peer} {data : List UInt8} {ev : Event Peer}
    (delivers : Delivers data ev) :
    ((n.handle .dev ev).halted = false ∧ n.ownFunds ≤ (n.handle .release ev).state.ownFunds) ↔
      ∀ tx, n.admitted ev = some tx → n.ownFunds + tx.amount.toNat < 2 ^ 64 := by
  have network : ∀ line now publishOk, ev ≠ .stdin line now publishOk := by
    rintro line now publishOk rfl
    exact delivers
  cases admits : n.admitted ev with
  | none =>
    obtain ⟨live, _⟩ := ledger_of_unadmitted (p := .dev) network admits
    obtain ⟨_, ledger⟩ := ledger_of_unadmitted (p := .release) network admits
    have funds := ownFunds_of_ledger ledger
    constructor
    · intro _ tx absent
      cases absent
    · intro _
      exact ⟨live, by omega⟩
  | some tx =>
    have wrapped : (n.handle .release ev).state.ownFunds = (n.ownFunds + tx.amount.toNat) % 2 ^ 64 := by
      rcases handle_of_admitted .release admits with ⟨dev, _, _⟩ | ⟨_, report, _, reaction⟩
      · cases dev
      · rw [reaction]
        exact n.ownFunds_received tx
    constructor
    · rintro ⟨live, kept⟩ other same
      cases same
      rcases handle_of_admitted .dev admits with ⟨_, _, reaction⟩ | ⟨fits, _⟩
      · rw [reaction] at live
        cases live
      · exact fits rfl
    · intro fits
      have here := fits tx rfl
      rcases handle_of_admitted .dev admits with ⟨_, full, _⟩ | ⟨_, report, _, reaction⟩
      · exact absurd here full
      · rw [reaction, wrapped, Nat.mod_eq_of_lt here]
        exact ⟨rfl, Nat.le_add_right _ _⟩

/-- A gossip message with the largest amount, and a node with one coin. -/
def hugePayment : Event Nat := .gossip (samplePayment 0xffffffffffffffff 0).toRlpBytes

def oneCoin : Node samplePrimitives Nat := start (sampleWallet 1) 1

theorem payload_harmless_iff_hugePayment :
    ((oneCoin.handle .dev hugePayment).halted = false ∧
        oneCoin.ownFunds ≤ (oneCoin.handle .release hugePayment).state.ownFunds) ↔
      ∀ tx, oneCoin.admitted hugePayment = some tx → oneCoin.ownFunds + tx.amount.toNat < 2 ^ 64 := by
  have delivers : Delivers (samplePayment 0xffffffffffffffff 0).toRlpBytes hugePayment := rfl
  exact payload_harmless_iff delivers

/-- It stops the checked build and empties the wallet of the wrapping one. -/
theorem hugePayment_harmful :
    ¬ ((oneCoin.handle .dev hugePayment).halted = false ∧
      oneCoin.ownFunds ≤ (oneCoin.handle .release hugePayment).state.ownFunds) := by
  decide +kernel

section Runs
variable {p : Profile} {wallet : Wallet C} {balance : UInt64} {events : List (Event Peer)}

/-- Every event that changes the own balance through the network credits an
amount which the holder of the paying key signed over to this wallet; no
other key involved has the paying address. -/
theorem credit_authorised {signed : SigningLog C} {keys : Set (VerifyingKey C)}
    (unforged : signed.Unforged (handledIn (steps (handle p) (start wallet balance) events)))
    (differ : signed.DigestsDiffer (handledIn (steps (handle p) (start wallet balance) events)))
    (addresses : signed.AddressesDiffer keys) {st : Step (Node C Peer) (Event Peer) (Effect Peer)}
    (member : st ∈ steps (handle p) (start wallet balance) events)
    (network : ∀ line now publishOk, st.input ≠ .stdin line now publishOk)
    (changed : st.reaction.state.ownFunds ≠ st.before.ownFunds) :
    ∃ (m : Payload) (key : VerifyingKey C), signed key m ∧ deriveAddress key = m.fromAddr ∧
      (∀ other ∈ keys, deriveAddress other = m.fromAddr → other = key) ∧ m.toAddr = wallet.address ∧
      st.reaction.state.ledger = (st.before.ledger.credit p wallet.address m.amount).state := by
  obtain ⟨_, _, _, _, _, sameWallet, answer⟩ := step_history member
  rw [answer] at changed ⊢
  cases admits : st.before.admitted st.input with
  | none =>
    obtain ⟨_, ledger⟩ := ledger_of_unadmitted (p := p) network admits
    exact absurd (ownFunds_of_ledger ledger) changed
  | some tx =>
    obtain ⟨handles, verified, here⟩ := admitted_spec admits
    have among := mem_handledIn.mpr ⟨st, member, handles⟩
    obtain ⟨key, signs, payer⟩ := signed_of_verified unforged differ among verified
    have ledger := ledger_of_admitted (p := p) admits
    rw [sameWallet] at here ledger
    refine ⟨tx.payload, key, signs, payer, fun other inside same => ?_, here, ledger⟩
    exact addresses.2 inside (addresses.1 key _ signs) (same.trans payer.symm)

/-- Wallet 2 has signed one payment and no other key anything. -/
def sampleLog : SigningLog samplePrimitives := fun key m =>
  key = (sampleWallet 2).verifyingKey ∧ m = (samplePayment 30 0).payload

theorem credit_authorised_samplePayment :
    let receiver : Node samplePrimitives Nat := start (sampleWallet 1) 100
    let delivery : Event Nat := .gossip (samplePayment 30 0).toRlpBytes
    ∃ (m : Payload) (key : VerifyingKey samplePrimitives), sampleLog key m ∧
      deriveAddress key = m.fromAddr ∧
      (∀ other ∈ ({(sampleWallet 2).verifyingKey} : Set (VerifyingKey samplePrimitives)),
        deriveAddress other = m.fromAddr → other = key) ∧ m.toAddr = (sampleWallet 1).address ∧
      (receiver.handle .dev delivery).state.ledger =
        (receiver.ledger.credit .dev (sampleWallet 1).address m.amount).state := by
  intro receiver delivery
  have arrived : handledIn (steps (handle .dev) receiver [delivery]) = [samplePayment 30 0] := by
    decide +kernel
  have unforged : sampleLog.Unforged (handledIn (steps (handle .dev) receiver [delivery])) := by
    rw [arrived]
    intro tx member key valid
    rw [List.mem_singleton] at member
    subst member
    have owner := samplePrimitives_signer valid
    exact ⟨_, ⟨VerifyingKey.ext owner, rfl⟩, rfl⟩
  have differ : sampleLog.DigestsDiffer (handledIn (steps (handle .dev) receiver [delivery])) := by
    rw [arrived]
    rintro key m ⟨_, rfl⟩ tx member _
    rw [List.mem_singleton] at member
    rw [member]
  have addresses : sampleLog.AddressesDiffer {(sampleWallet 2).verifyingKey} :=
    ⟨fun key m signs => signs.1, Set.injOn_singleton _ _⟩
  have member : ⟨receiver, delivery, receiver.handle .dev delivery⟩ ∈
      steps (handle .dev) receiver [delivery] := List.mem_cons_self ..
  have changed : (receiver.handle .dev delivery).state.ownFunds ≠ receiver.ownFunds := by decide +kernel
  have authorised := credit_authorised unforged differ addresses member (by simp [delivery]) changed
  dsimp only at authorised
  exact authorised

end Runs
end Node
end SecureExchange
