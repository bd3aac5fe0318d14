import SecureExchange.Operations
import SecureExchange.Sample

namespace SecureExchange
namespace Ledger

/-- A transfer carried out in full, with all sums taken as natural numbers. -/
structure Moves (l : Ledger) (fromAddr toAddr : Address) (amount : UInt64) (l' : Ledger) : Prop where
  payer : l'.funds fromAddr + amount.toNat = l.funds fromAddr
  payerNonce : (l'.nextNonce fromAddr).toNat = (l.nextNonce fromAddr).toNat + 1
  payee : l'.funds toAddr = l.funds toAddr + amount.toNat
  payeeNonce : l'.nextNonce toAddr = l.nextNonce toAddr
  others : ∀ a, a ≠ fromAddr → a ≠ toAddr → l'.account a = l.account a

/-- A call that returns `Ok` has moved the amount, and any other call has
left the accounts alone. -/
def AllOrNothing (l : Ledger) (fromAddr toAddr : Address) (amount : UInt64) :
    Call Ledger (Except LedgerError Unit) → Prop
  | .returned l' (.ok ()) => l.Moves fromAddr toAddr amount l'
  | .returned l' (.error _) => l' = l
  | .panicked l' => l' = l

variable {l : Ledger} {fromAddr toAddr : Address} {amount : UInt64}

theorem Covers.moves (covers : l.Covers fromAddr toAddr amount)
    (nonceFits : (l.nextNonce fromAddr).toNat + 1 < 2 ^ 64)
    (sumFits : l.funds toAddr + amount.toNat < 2 ^ 64) :
    l.Moves fromAddr toAddr amount ((l.debited fromAddr amount).plus toAddr amount) := by
  have different := covers.1
  have untouched := account_debited_ne l different.symm amount
  constructor
  case payer =>
    rw [funds_congr (account_plus_ne _ different amount)]
    exact covers.funds_debited
  case payerNonce =>
    rw [nextNonce_plus, covers.nextNonce_debited]
    exact toNat_add_of_fits nonceFits
  case payee =>
    rw [← funds_congr untouched] at sumFits ⊢
    exact funds_plus_of_fits sumFits
  case payeeNonce => rw [nextNonce_plus, nextNonce_congr untouched]
  case others =>
    intro a notPayer notPayee
    rw [account_plus_ne _ notPayee, account_debited_ne l notPayer]

/-- The debit shows in the ledger that a panic on the nonce leaves behind. -/
theorem Covers.withdrawn_ne (covers : l.Covers fromAddr toAddr amount) : l.withdrawn fromAddr amount ≠ l := by
  intro same
  have entry := covers.funds_withdrawn
  have positive := covers.amount_pos
  rw [same] at entry
  omega

theorem Covers.debited_ne (covers : l.Covers fromAddr toAddr amount) : l.debited fromAddr amount ≠ l := by
  intro same
  have entry := covers.funds_debited
  have positive := covers.amount_pos
  rw [same] at entry
  omega

theorem Moves.fits {l' : Ledger} (moves : l.Moves fromAddr toAddr amount l') :
    (l.nextNonce fromAddr).toNat + 1 < 2 ^ 64 ∧ l.funds toAddr + amount.toNat < 2 ^ 64 := by
  have nonce := moves.payerNonce ▸ (l'.nextNonce fromAddr).toNat_lt
  have sum := moves.payee ▸ l'.funds_lt toAddr
  exact ⟨nonce, sum⟩

/-- In either build, a transfer is all or nothing exactly when, should its
checks pass, neither the nonce nor the recipient's balance is at its limit. -/
theorem transfer_allOrNothing_iff (p : Profile) (l : Ledger) (fromAddr toAddr : Address) (amount nonce : UInt64) :
    l.AllOrNothing fromAddr toAddr amount (l.transfer p fromAddr toAddr amount nonce) ↔
      (l.Accepts fromAddr toAddr amount nonce →
        (l.nextNonce fromAddr).toNat + 1 < 2 ^ 64 ∧ l.funds toAddr + amount.toNat < 2 ^ 64) := by
  by_cases accepts : l.Accepts fromAddr toAddr amount nonce
  · have covers := accepts.1
    rw [transfer_of_accepts accepts]
    constructor
    · intro whole _
      split at whole
      · exact absurd whole covers.withdrawn_ne
      · split at whole
        · exact absurd whole covers.debited_ne
        · exact whole.fits
    · intro fits
      obtain ⟨nonceFits, sumFits⟩ := fits accepts
      rw [if_neg (by omega), if_neg (by omega)]
      exact covers.moves nonceFits sumFits
  · obtain ⟨e, result⟩ := transfer_of_not_accepts (p := p) accepts
    rw [result]
    constructor
    · intro _ accepts'
      exact absurd accepts' accepts
    · intro _
      exact rfl

/-- A payer with 10 coins and a payee whose balance is five below its limit. -/
def nearlyFull : Ledger :=
  (new.set (sampleWallet 2).address ⟨10, 0⟩).set (sampleWallet 1).address ⟨0xfffffffffffffffb, 0⟩

/-- The checked build panics with the debit in the map, and the wrapping
build empties the payee's account. -/
theorem nearlyFull_halfway :
    ¬ nearlyFull.AllOrNothing (sampleWallet 2).address (sampleWallet 1).address 10
        (nearlyFull.transfer .dev (sampleWallet 2).address (sampleWallet 1).address 10 0) ∧
      ¬ nearlyFull.AllOrNothing (sampleWallet 2).address (sampleWallet 1).address 10
        (nearlyFull.transfer .release (sampleWallet 2).address (sampleWallet 1).address 10 0) := by
  have accepts : nearlyFull.Accepts (sampleWallet 2).address (sampleWallet 1).address 10 0 := by decide +kernel
  have full : 2 ^ 64 ≤ nearlyFull.funds (sampleWallet 1).address + (10 : UInt64).toNat := by decide +kernel
  rw [transfer_of_accepts accepts, transfer_of_accepts accepts]
  constructor
  · rw [if_neg (by decide +kernel), if_pos ⟨rfl, full⟩]
    exact accepts.1.debited_ne
  · rw [if_neg (by simp), if_neg (by simp)]
    intro moves
    have room := moves.fits.2
    omega

end Ledger
end SecureExchange
