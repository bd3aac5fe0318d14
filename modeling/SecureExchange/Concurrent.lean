import SecureExchange.Library.Linearization
import SecureExchange.Operations

namespace SecureExchange
open Linearization

/-- What all threads work on: the accounts, and whether a transfer holds
the transfer lock. -/
structure Shared where
  ledger : Ledger
  locked : Bool

/-- What a transfer does next: the step on the sender's entry, the step on
the recipient's, or giving the lock back and returning. -/
inductive Point where
  | debit
  | credit
  | release (result : Option Returned)

namespace Ledger

/-- The part of `transfer` that holds the sender's entry: the checks, the
debit and the nonce. -/
def debitEntry (p : Profile) (l : Ledger) (fromAddr : Address) (amount nonce : UInt64) :
    Call Ledger (Except LedgerError Unit) :=
  match l.account fromAddr with
  | none => .returned l (.error (.addressNotFound fromAddr))
  | some sender =>
    if sender.nonce ≠ nonce then .returned l (.error (.invalidNonce sender.nonce nonce))
    else if sender.balance < amount then
      .returned l (.error (.insufficientBalance sender.balance amount))
    else
      let debited : AccountState := { sender with balance := sender.balance - amount }
      match p.add sender.nonce 1 with
      | none => .panicked (l.set fromAddr debited)
      | some bumped => .returned (l.set fromAddr { debited with nonce := bumped }) (.ok ())

/-- The calls on a shared ledger. Each access to an entry is one step, and
`none` as a result is a panic, which unwinds through the lock's guard. -/
def object (p : Profile) : Object Shared Operation Point (Option Returned) where
  first
    | .register address initialBalance, s =>
      let (ledger, isNew) := s.ledger.register address initialBalance
      some ({ s with ledger }, .inr (some (.registered isNew)))
    | .credit address amount, s =>
      match s.ledger.credit p address amount with
      | .panicked ledger => some ({ s with ledger }, .inr none)
      | .returned ledger () => some ({ s with ledger }, .inr (some .credited))
    | .transfer fromAddr toAddr amount _, s =>
      -- Both checks come before the lock is asked for.
      if fromAddr = toAddr then some (s, .inr (some (.transferred (.error .selfTransfer))))
      else if amount = 0 then some (s, .inr (some (.transferred (.error .zeroValue))))
      else if s.locked then none
      else some ({ s with locked := true }, .inl .debit)
  step
    | .transfer fromAddr _ amount nonce, .debit, s =>
      match s.ledger.debitEntry p fromAddr amount nonce with
      | .panicked ledger => some ({ s with ledger }, .inl (.release none))
      | .returned ledger (.error e) => some ({ s with ledger }, .inl (.release (some (.transferred (.error e)))))
      | .returned ledger (.ok ()) => some ({ s with ledger }, .inl .credit)
    | .transfer _ toAddr amount _, .credit, s =>
      match s.ledger.addToEntry p toAddr amount with
      | .panicked ledger => some ({ s with ledger }, .inl (.release none))
      | .returned ledger () => some ({ s with ledger }, .inl (.release (some (.transferred (.ok ())))))
    | .transfer .., .release result, s => some ({ s with locked := false }, .inr result)
    | _, _, _ => none

/-- A call on a ledger that nothing else touches; `none` is a panic. -/
def atomically (p : Profile) (l : Ledger) (operation : Operation) : Ledger × Option Returned :=
  match l.perform p operation with
  | .returned l' value => (l', some value)
  | .panicked l' => (l', none)

/-- A transfer that nothing interrupts is its steps one after the other. -/
theorem transfer_eq_steps (p : Profile) (l : Ledger) (fromAddr toAddr : Address) (amount nonce : UInt64) :
    l.transfer p fromAddr toAddr amount nonce =
      if fromAddr = toAddr then .returned l (.error .selfTransfer)
      else if amount = 0 then .returned l (.error .zeroValue)
      else match l.debitEntry p fromAddr amount nonce with
        | .panicked l' => .panicked l'
        | .returned l' (.error e) => .returned l' (.error e)
        | .returned l' (.ok ()) =>
          match l'.addToEntry p toAddr amount with
          | .panicked l'' => .panicked l''
          | .returned l'' () => .returned l'' (.ok ()) := by
  unfold transfer debitEntry
  split
  · rfl
  split
  · rfl
  cases l.account fromAddr with
  | none => rfl
  | some sender =>
    simp only
    split
    · rfl
    split
    · rfl
    cases p.add sender.nonce 1 with
    | none => rfl
    | some bumped => rfl

section Debit
variable {p : Profile} {l : Ledger} {fromAddr toAddr : Address} {amount nonce : UInt64}

theorem debitEntry_of_accepts (accepts : l.Accepts fromAddr toAddr amount nonce) :
    l.debitEntry p fromAddr amount nonce =
      if p = .dev ∧ 2 ^ 64 ≤ (l.nextNonce fromAddr).toNat + 1 then .panicked (l.withdrawn fromAddr amount)
      else .returned (l.debited fromAddr amount) (.ok ()) := by
  obtain ⟨covers, current⟩ := accepts
  obtain ⟨sender, found, covered⟩ := covers.account
  have one : (1 : UInt64).toNat = 1 := rfl
  rw [nextNonce_of_account found] at current ⊢
  simp only [debitEntry, found, current, ne_eq, not_true_eq_false, if_false,
    if_neg (UInt64.not_lt.mpr covered), Profile.add, one, withdrawn, debited]
  by_cases lastNonce : p = .dev ∧ 2 ^ 64 ≤ sender.nonce.toNat + 1
  · simp only [if_pos lastNonce]
  · simp only [if_neg lastNonce]

/-- The step on the sender's entry fails just when the whole call would. -/
theorem debitEntry_of_not_accepts (different : fromAddr ≠ toAddr) (nonzero : amount ≠ 0)
    (refused : ¬ l.Accepts fromAddr toAddr amount nonce) :
    ∃ e, l.debitEntry p fromAddr amount nonce = .returned l (.error e) ∧
      l.transfer p fromAddr toAddr amount nonce = .returned l (.error e) := by
  obtain ⟨e, result⟩ := transfer_of_not_accepts (p := p) refused
  refine ⟨e, ?_, result⟩
  rw [transfer_eq_steps, if_neg different, if_neg nonzero] at result
  split at result
  · cases result
  · rename_i l' e' stepped
    cases result
    exact stepped
  · split at result
    · cases result
    · cases result

theorem account_debited (accepts : l.Accepts fromAddr toAddr amount nonce) (a : Address) :
    ((l.debited fromAddr amount).account a).isSome = (l.account a).isSome := by
  obtain ⟨sender, found, _⟩ := accepts.1.account
  by_cases same : a = fromAddr
  · subst same
    simp only [debited, found, account_set_self, Option.isSome_some]
  · rw [account_debited_ne l same]

theorem set_set (l : Ledger) (a : Address) (s s' : AccountState) : (l.set a s).set a s' = l.set a s' := by
  simp only [set, Finmap.insert_insert]

theorem set_comm (l : Ledger) {a b : Address} (different : a ≠ b) (s s' : AccountState) :
    (l.set a s).set b s' = (l.set b s').set a s := by
  simp only [set, Finmap.insert_insert_of_ne _ different]

/-- A debit and a write to another entry pass each other. -/
theorem debited_set_ne (l : Ledger) {a : Address} (different : a ≠ fromAddr) (s : AccountState) (amount : UInt64) :
    (l.set a s).debited fromAddr amount = (l.debited fromAddr amount).set a s := by
  unfold debited
  rw [account_set_ne l different.symm]
  cases l.account fromAddr with
  | none => rfl
  | some sender => exact set_comm l different ..

/-- A debit and money arriving pass each other, on one entry too. -/
theorem debited_plus (accepts : l.Accepts fromAddr toAddr amount nonce) (a : Address) (arriving : UInt64) :
    (l.plus a arriving).debited fromAddr amount = (l.debited fromAddr amount).plus a arriving := by
  by_cases same : a = fromAddr
  · subst same
    obtain ⟨sender, found, _⟩ := accepts.1.account
    have sums : sender.balance + arriving - amount = sender.balance - amount + arriving := by grind
    simp only [debited, plus, entryPlus, found, account_set_self, set_set, sums]
  · rw [plus, plus, debited_set_ne l same, entryPlus, entryPlus, account_debited_ne l same]

theorem Accepts.of_register (accepts : l.Accepts fromAddr toAddr amount nonce) {a : Address} {s : AccountState}
    (missing : l.account a = none) :
    (l.set a s).Accepts fromAddr toAddr amount nonce ∧ (l.set a s).nextNonce fromAddr = l.nextNonce fromAddr := by
  obtain ⟨sender, found, _⟩ := accepts.1.account
  have other : fromAddr ≠ a := fun same => by rw [same, missing] at found; cases found
  have untouched := account_set_ne l other s
  rw [Accepts, Covers, funds_congr untouched, nextNonce_congr untouched]
  exact ⟨accepts, rfl⟩

theorem Accepts.of_plus (accepts : l.Accepts fromAddr toAddr amount nonce) {a : Address} {arriving : UInt64}
    (fits : l.funds a + arriving.toNat < 2 ^ 64) : (l.plus a arriving).Accepts fromAddr toAddr amount nonce := by
  obtain ⟨⟨different, nonzero, covered⟩, current⟩ := accepts
  refine ⟨⟨different, nonzero, ?_⟩, by rw [nextNonce_plus, current]⟩
  by_cases same : fromAddr = a
  · subst same
    rw [funds_plus_of_fits fits]
    omega
  · rw [funds_congr (account_plus_ne l same arriving)]
    exact covered

theorem funds_debited_le (accepts : l.Accepts fromAddr toAddr amount nonce) (a : Address) :
    (l.debited fromAddr amount).funds a ≤ l.funds a := by
  by_cases same : a = fromAddr
  · subst same
    have moved := accepts.1.funds_debited
    omega
  · rw [funds_congr (account_debited_ne l same amount)]

end Debit
end Ledger
end SecureExchange
