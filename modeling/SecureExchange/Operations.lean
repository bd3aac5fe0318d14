import SecureExchange.Library.FinmapTotal
import SecureExchange.Library.Reactive
import SecureExchange.LedgerLaws

namespace SecureExchange
open Reactive

/-- A call that changes a ledger. -/
inductive Operation where
  | register (address : Address) (initialBalance : UInt64)
  | transfer (fromAddr toAddr : Address) (amount nonce : UInt64)
  | credit (address : Address) (amount : UInt64)
deriving DecidableEq

/-- What a completed call returned. -/
inductive Returned where
  | registered (isNew : Bool)
  | transferred (result : Except LedgerError Unit)
  | credited
deriving DecidableEq

namespace Ledger

/-- Carry out one call. -/
def perform (p : Profile) (l : Ledger) : Operation → Call Ledger Returned
  | .register address initialBalance =>
    let (l', isNew) := l.register address initialBalance
    .returned l' (.registered isNew)
  | .transfer fromAddr toAddr amount nonce =>
    match l.transfer p fromAddr toAddr amount nonce with
    | .returned l' result => .returned l' (.transferred result)
    | .panicked l' => .panicked l'
  | .credit address amount =>
    match l.credit p address amount with
    | .returned l' () => .returned l' .credited
    | .panicked l' => .panicked l'

/-- One call after the other, with a log of those that returned. A panic
unwinds the caller, so nothing is called after it. -/
def serve (p : Profile) : Machine Ledger Operation (Operation × Returned) := fun l operation =>
  match l.perform p operation with
  | .returned l' value => ⟨l', [(operation, value)], false⟩
  | .panicked l' => ⟨l', [], true⟩

/-- All balances together. -/
def supply (l : Ledger) : Nat := l.accounts.total fun state => state.balance.toNat

/-- The checks of `transfer`. -/
def Accepts (l : Ledger) (fromAddr toAddr : Address) (amount nonce : UInt64) : Prop :=
  l.Covers fromAddr toAddr amount ∧ nonce = l.nextNonce fromAddr

instance (l : Ledger) (fromAddr toAddr : Address) (amount nonce : UInt64) :
    Decidable (l.Accepts fromAddr toAddr amount nonce) :=
  inferInstanceAs (Decidable (_ ∧ _))

theorem funds_eq_weight (l : Ledger) (a : Address) :
    l.funds a = l.accounts.weight (fun state => state.balance.toNat) a := by
  rw [funds, balance, account, Finmap.weight]
  cases l.accounts.lookup a with
  | none => rfl
  | some state => rfl

theorem supply_set (l : Ledger) (a : Address) (state : AccountState) :
    (l.set a state).supply + l.funds a = l.supply + state.balance.toNat := by
  rw [funds_eq_weight]
  exact Finmap.total_insert _ l.accounts a state

theorem funds_le_supply (l : Ledger) (a : Address) : l.funds a ≤ l.supply := by
  rw [funds_eq_weight]
  exact Finmap.weight_le_total _ l.accounts a

/-- Two accounts together hold no more than all do. -/
theorem two_funds_le_supply (l : Ledger) {a b : Address} (different : b ≠ a) :
    l.funds a + l.funds b ≤ l.supply := by
  rw [funds_eq_weight, funds_eq_weight]
  exact Finmap.weights_le_total _ l.accounts different

theorem supply_plus {l : Ledger} {a : Address} {amount : UInt64} (fits : l.funds a + amount.toNat < 2 ^ 64) :
    (l.plus a amount).supply = l.supply + amount.toNat := by
  have whole := l.supply_set a (l.entryPlus a amount)
  have entry := funds_plus_of_fits fits
  rw [plus, funds_of_account (account_set_self ..)] at entry
  rw [plus]
  omega

theorem Covers.supply_withdrawn {l : Ledger} {fromAddr toAddr : Address} {amount : UInt64}
    (covers : l.Covers fromAddr toAddr amount) :
    (l.withdrawn fromAddr amount).supply + amount.toNat = l.supply := by
  have entry := covers.funds_withdrawn
  obtain ⟨sender, found, _⟩ := covers.account
  simp only [withdrawn, found] at entry ⊢
  have whole := l.supply_set fromAddr { sender with balance := sender.balance - amount }
  rw [funds_of_account (account_set_self ..)] at entry
  omega

theorem Covers.supply_debited {l : Ledger} {fromAddr toAddr : Address} {amount : UInt64}
    (covers : l.Covers fromAddr toAddr amount) :
    (l.debited fromAddr amount).supply + amount.toNat = l.supply := by
  have entry := covers.funds_debited
  obtain ⟨sender, found, _⟩ := covers.account
  simp only [debited, found] at entry ⊢
  have whole := l.supply_set fromAddr ⟨sender.balance - amount, sender.nonce + 1⟩
  rw [funds_of_account (account_set_self ..)] at entry
  omega

theorem Covers.amount_pos {l : Ledger} {fromAddr toAddr : Address} {amount : UInt64}
    (covers : l.Covers fromAddr toAddr amount) : 0 < amount.toNat :=
  Nat.pos_of_ne_zero fun zero => covers.2.1 (UInt64.toNat_inj.mp zero)

theorem transfer_of_not_accepts {p : Profile} {l : Ledger} {fromAddr toAddr : Address} {amount nonce : UInt64}
    (refused : ¬ l.Accepts fromAddr toAddr amount nonce) :
    ∃ e, l.transfer p fromAddr toAddr amount nonce = .returned l (.error e) :=
  transfer_of_not_ok fun ok => refused ((verdict_ok_iff ..).mp ok)

/-- A transfer that passes the checks runs to its end or panics on one of
its two additions, each time with the debit already made. -/
theorem transfer_of_accepts {p : Profile} {l : Ledger} {fromAddr toAddr : Address} {amount nonce : UInt64}
    (accepts : l.Accepts fromAddr toAddr amount nonce) :
    l.transfer p fromAddr toAddr amount nonce =
      if p = .dev ∧ 2 ^ 64 ≤ (l.nextNonce fromAddr).toNat + 1 then
        .panicked (l.withdrawn fromAddr amount)
      else if p = .dev ∧ 2 ^ 64 ≤ l.funds toAddr + amount.toNat then
        .panicked (l.debited fromAddr amount)
      else .returned ((l.debited fromAddr amount).plus toAddr amount) (.ok ()) := by
  rw [accepts.2]
  exact transfer_covered accepts.1

/-- Everything that a call can do. -/
inductive Performed (p : Profile) (l : Ledger) : Operation → Call Ledger Returned → Prop
  | opened {a balance} (missing : l.account a = none) :
      Performed p l (.register a balance) (.returned (l.set a (.new balance)) (.registered true))
  | known {a balance state} (found : l.account a = some state) :
      Performed p l (.register a balance) (.returned l (.registered false))
  | credited {a amount} (fits : p = .dev → l.funds a + amount.toNat < 2 ^ 64) :
      Performed p l (.credit a amount) (.returned (l.plus a amount) .credited)
  | creditPanic {a amount} (checked : p = .dev) (full : 2 ^ 64 ≤ l.funds a + amount.toNat) :
      Performed p l (.credit a amount) (.panicked l)
  | refused {fromAddr toAddr amount nonce e} (refused : ¬ l.Accepts fromAddr toAddr amount nonce) :
      Performed p l (.transfer fromAddr toAddr amount nonce) (.returned l (.transferred (.error e)))
  | moved {fromAddr toAddr amount nonce} (accepts : l.Accepts fromAddr toAddr amount nonce)
      (nonceFits : p = .dev → (l.nextNonce fromAddr).toNat + 1 < 2 ^ 64)
      (sumFits : p = .dev → l.funds toAddr + amount.toNat < 2 ^ 64) :
      Performed p l (.transfer fromAddr toAddr amount nonce)
        (.returned ((l.debited fromAddr amount).plus toAddr amount) (.transferred (.ok ())))
  | noncePanic {fromAddr toAddr amount nonce} (accepts : l.Accepts fromAddr toAddr amount nonce)
      (checked : p = .dev) (full : 2 ^ 64 ≤ (l.nextNonce fromAddr).toNat + 1) :
      Performed p l (.transfer fromAddr toAddr amount nonce) (.panicked (l.withdrawn fromAddr amount))
  | movePanic {fromAddr toAddr amount nonce} (accepts : l.Accepts fromAddr toAddr amount nonce)
      (checked : p = .dev) (full : 2 ^ 64 ≤ l.funds toAddr + amount.toNat) :
      Performed p l (.transfer fromAddr toAddr amount nonce) (.panicked (l.debited fromAddr amount))

/-- Every call has one of the listed outcomes. -/
theorem perform_spec (p : Profile) (l : Ledger) (operation : Operation) :
    Performed p l operation (l.perform p operation) := by
  cases operation with
  | register a balance =>
    cases found : l.account a with
    | none =>
      simp only [perform, register, found]
      exact .opened found
    | some state =>
      simp only [perform, register, found]
      exact .known found
  | credit a amount =>
    rw [perform, credit, addToEntry_eq]
    by_cases full : p = .dev ∧ 2 ^ 64 ≤ l.funds a + amount.toNat
    · rw [if_pos full]
      exact .creditPanic full.1 full.2
    · rw [if_neg full]
      exact .credited fun dev => Nat.lt_of_not_le fun large => full ⟨dev, large⟩
  | transfer fromAddr toAddr amount nonce =>
    rw [perform]
    by_cases accepts : l.Accepts fromAddr toAddr amount nonce
    · rw [transfer_of_accepts accepts]
      by_cases lastNonce : p = .dev ∧ 2 ^ 64 ≤ (l.nextNonce fromAddr).toNat + 1
      · rw [if_pos lastNonce]
        exact .noncePanic accepts lastNonce.1 lastNonce.2
      rw [if_neg lastNonce]
      by_cases full : p = .dev ∧ 2 ^ 64 ≤ l.funds toAddr + amount.toNat
      · rw [if_pos full]
        exact .movePanic accepts full.1 full.2
      · rw [if_neg full]
        exact .moved accepts (fun dev => Nat.lt_of_not_le fun large => lastNonce ⟨dev, large⟩)
          fun dev => Nat.lt_of_not_le fun large => full ⟨dev, large⟩
    · obtain ⟨e, result⟩ := transfer_of_not_accepts (p := p) accepts
      rw [result]
      exact .refused accepts

end Ledger
end SecureExchange
