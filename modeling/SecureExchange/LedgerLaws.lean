import SecureExchange.Ledger

namespace SecureExchange
namespace Ledger

/-- The balance of an address as a natural number, zero when it is unknown. -/
def funds (l : Ledger) (a : Address) : Nat := ((l.balance a).getD 0).toNat

def nextNonce (l : Ledger) (a : Address) : UInt64 := (l.nonce a).getD 0

@[simp] theorem account_set_self (l : Ledger) (a : Address) (s : AccountState) :
    (l.set a s).account a = some s := Finmap.lookup_insert _

theorem account_set_ne (l : Ledger) {a b : Address} (different : b ≠ a) (s : AccountState) :
    (l.set a s).account b = l.account b := Finmap.lookup_insert_of_ne _ different

theorem funds_of_account {l : Ledger} {a : Address} {s : AccountState} (found : l.account a = some s) :
    l.funds a = s.balance.toNat := by simp [funds, balance, found]

theorem nextNonce_of_account {l : Ledger} {a : Address} {s : AccountState}
    (found : l.account a = some s) : l.nextNonce a = s.nonce := by simp [nextNonce, nonce, found]

theorem funds_of_missing {l : Ledger} {a : Address} (missing : l.account a = none) : l.funds a = 0 := by
  simp [funds, balance, missing]

theorem nextNonce_of_missing {l : Ledger} {a : Address} (missing : l.account a = none) :
    l.nextNonce a = 0 := by simp [nextNonce, nonce, missing]

theorem funds_congr {l l' : Ledger} {a : Address} (same : l'.account a = l.account a) :
    l'.funds a = l.funds a := by simp only [funds, balance, same]

theorem nextNonce_congr {l l' : Ledger} {a : Address} (same : l'.account a = l.account a) :
    l'.nextNonce a = l.nextNonce a := by simp only [nextNonce, nonce, same]

theorem funds_lt (l : Ledger) (a : Address) : l.funds a < 2 ^ 64 := UInt64.toNat_lt _

/-- The entry that adding an amount leaves, with the sum wrapping. -/
def entryPlus (l : Ledger) (a : Address) (amount : UInt64) : AccountState :=
  match l.account a with
  | some s => { s with balance := s.balance + amount }
  | none => .new amount

def plus (l : Ledger) (a : Address) (amount : UInt64) : Ledger := l.set a (l.entryPlus a amount)

/-- Adding to an entry has two outcomes: the wrapped sum, or in a checked
build whose sum does not fit, a panic that changed nothing. -/
theorem addToEntry_eq (p : Profile) (l : Ledger) (a : Address) (amount : UInt64) :
    l.addToEntry p a amount =
      if p = .dev ∧ 2 ^ 64 ≤ l.funds a + amount.toNat then .panicked l
      else .returned (l.plus a amount) () := by
  unfold addToEntry
  cases found : l.account a with
  | none =>
    have small := amount.toNat_lt
    rw [funds_of_missing found, if_neg (by omega)]
    simp only [plus, entryPlus, found]
  | some s =>
    rw [funds_of_account found]
    simp only [Profile.add, plus, entryPlus, found]
    by_cases full : p = .dev ∧ 2 ^ 64 ≤ s.balance.toNat + amount.toNat
    · simp only [if_pos full]
    · simp only [if_neg full]

theorem funds_plus_self (l : Ledger) (a : Address) (amount : UInt64) :
    (l.plus a amount).funds a = (l.funds a + amount.toNat) % 2 ^ 64 := by
  rw [plus, funds_of_account (account_set_self ..), entryPlus]
  cases found : l.account a with
  | none =>
    rw [funds_of_missing found, Nat.zero_add, Nat.mod_eq_of_lt amount.toNat_lt]
    rfl
  | some s => rw [funds_of_account found, UInt64.toNat_add]

theorem funds_plus_of_fits {l : Ledger} {a : Address} {amount : UInt64}
    (fits : l.funds a + amount.toNat < 2 ^ 64) :
    (l.plus a amount).funds a = l.funds a + amount.toNat := by
  rw [funds_plus_self, Nat.mod_eq_of_lt fits]

theorem account_plus_ne (l : Ledger) {a b : Address} (different : b ≠ a) (amount : UInt64) :
    (l.plus a amount).account b = l.account b := account_set_ne _ different _

/-- Money arriving never moves a nonce; a new account starts at zero. -/
theorem nextNonce_plus (l : Ledger) (a b : Address) (amount : UInt64) :
    (l.plus a amount).nextNonce b = l.nextNonce b := by
  by_cases same : b = a
  · subst b
    rw [plus, nextNonce_of_account (account_set_self ..), entryPlus]
    cases found : l.account a with
    | none => rw [nextNonce_of_missing found]; rfl
    | some s => rw [nextNonce_of_account found]
  · exact nextNonce_congr (account_plus_ne l same amount)

/-- What a transfer of an account's own next nonce needs in order to go through. -/
def Covers (l : Ledger) (fromAddr toAddr : Address) (amount : UInt64) : Prop :=
  fromAddr ≠ toAddr ∧ amount ≠ 0 ∧ amount.toNat ≤ l.funds fromAddr

instance (l : Ledger) (fromAddr toAddr : Address) (amount : UInt64) :
    Decidable (l.Covers fromAddr toAddr amount) := by
  unfold Covers
  infer_instance

/-- The ledger when only the balance of the sender has been written. -/
def withdrawn (l : Ledger) (a : Address) (amount : UInt64) : Ledger :=
  match l.account a with
  | some s => l.set a { s with balance := s.balance - amount }
  | none => l

/-- The ledger when the sender is debited and its nonce bumped. -/
def debited (l : Ledger) (a : Address) (amount : UInt64) : Ledger :=
  match l.account a with
  | some s => l.set a ⟨s.balance - amount, s.nonce + 1⟩
  | none => l

theorem Covers.account {l : Ledger} {fromAddr toAddr : Address} {amount : UInt64}
    (covers : l.Covers fromAddr toAddr amount) :
    ∃ sender, l.account fromAddr = some sender ∧ amount ≤ sender.balance := by
  obtain ⟨_, nonzero, covered⟩ := covers
  cases found : l.account fromAddr with
  | none =>
    rw [funds_of_missing found, Nat.le_zero] at covered
    exact absurd (UInt64.toNat_inj.mp covered) nonzero
  | some sender =>
    rw [funds_of_account found] at covered
    exact ⟨sender, rfl, UInt64.le_iff_toNat_le.mpr covered⟩

theorem account_debited_ne (l : Ledger) {a b : Address} (different : b ≠ a) (amount : UInt64) :
    (l.debited a amount).account b = l.account b := by
  unfold debited
  split
  · exact account_set_ne l different _
  · rfl

theorem toNat_sub_add {x y : UInt64} (covered : y ≤ x) : (x - y).toNat + y.toNat = x.toNat := by
  have order := UInt64.le_iff_toNat_le.mp covered
  rw [UInt64.toNat_sub_of_le _ _ covered]
  omega

theorem Covers.funds_withdrawn {l : Ledger} {fromAddr toAddr : Address} {amount : UInt64}
    (covers : l.Covers fromAddr toAddr amount) :
    (l.withdrawn fromAddr amount).funds fromAddr + amount.toNat = l.funds fromAddr := by
  obtain ⟨sender, found, covered⟩ := covers.account
  simp only [withdrawn, found]
  rw [funds_of_account (account_set_self ..), funds_of_account found]
  exact toNat_sub_add covered

theorem Covers.funds_debited {l : Ledger} {fromAddr toAddr : Address} {amount : UInt64}
    (covers : l.Covers fromAddr toAddr amount) :
    (l.debited fromAddr amount).funds fromAddr + amount.toNat = l.funds fromAddr := by
  obtain ⟨sender, found, covered⟩ := covers.account
  simp only [debited, found]
  rw [funds_of_account (account_set_self ..), funds_of_account found]
  exact toNat_sub_add covered

theorem Covers.nextNonce_debited {l : Ledger} {fromAddr toAddr : Address} {amount : UInt64}
    (covers : l.Covers fromAddr toAddr amount) :
    (l.debited fromAddr amount).nextNonce fromAddr = l.nextNonce fromAddr + 1 := by
  obtain ⟨sender, found, _⟩ := covers.account
  simp only [debited, found]
  rw [nextNonce_of_account (account_set_self ..), nextNonce_of_account found]

/-- What the checks of `transfer` say, in their order. -/
def verdict (l : Ledger) (fromAddr toAddr : Address) (amount nonce : UInt64) : Except LedgerError Unit :=
  if fromAddr = toAddr then .error .selfTransfer
  else if amount = 0 then .error .zeroValue
  else
    match l.account fromAddr with
    | none => .error (.addressNotFound fromAddr)
    | some sender =>
      if sender.nonce ≠ nonce then .error (.invalidNonce sender.nonce nonce)
      else if sender.balance < amount then .error (.insufficientBalance sender.balance amount)
      else .ok ()

theorem verdict_ok_iff (l : Ledger) (fromAddr toAddr : Address) (amount nonce : UInt64) :
    l.verdict fromAddr toAddr amount nonce = .ok () ↔
      l.Covers fromAddr toAddr amount ∧ nonce = l.nextNonce fromAddr := by
  unfold verdict Covers
  by_cases same : fromAddr = toAddr
  · simp [same]
  by_cases zero : amount = 0
  · simp [same, zero]
  cases found : l.account fromAddr with
  | none =>
    have positive : ¬ amount.toNat ≤ 0 := fun none => zero (UInt64.toNat_inj.mp (Nat.le_zero.mp none))
    simp [same, zero, funds_of_missing found, positive]
  | some sender =>
    by_cases stale : sender.nonce = nonce
    · by_cases short : sender.balance < amount
      · have uncovered := UInt64.lt_iff_toNat_lt.mp short
        simp [same, zero, stale, short, funds_of_account found, uncovered]
      · have covered := UInt64.le_iff_toNat_le.mp (UInt64.not_lt.mp short)
        simp [same, zero, stale, short, funds_of_account found, nextNonce_of_account found, covered]
    · have behind : ¬ nonce = sender.nonce := fun current => stale current.symm
      simp [same, zero, stale, nextNonce_of_account found, behind]

theorem transfer_of_error {p : Profile} {l : Ledger} {fromAddr toAddr : Address} {amount nonce : UInt64}
    {e : LedgerError} (refused : l.verdict fromAddr toAddr amount nonce = .error e) :
    l.transfer p fromAddr toAddr amount nonce = .returned l (.error e) := by
  unfold verdict at refused
  unfold transfer
  by_cases same : fromAddr = toAddr
  · rw [if_pos same] at refused ⊢
    cases refused
    rfl
  rw [if_neg same] at refused ⊢
  by_cases zero : amount = 0
  · rw [if_pos zero] at refused ⊢
    cases refused
    rfl
  rw [if_neg zero] at refused ⊢
  cases found : l.account fromAddr with
  | none =>
    simp only [found] at refused ⊢
    cases refused
    rfl
  | some sender =>
    simp only [found] at refused ⊢
    by_cases stale : sender.nonce ≠ nonce
    · rw [if_pos stale] at refused ⊢
      cases refused
      rfl
    rw [if_neg stale] at refused ⊢
    by_cases short : sender.balance < amount
    · rw [if_pos short] at refused ⊢
      cases refused
      rfl
    · rw [if_neg short] at refused
      cases refused

/-- A transfer that fails a check changes nothing and says why. -/
theorem transfer_of_not_ok {p : Profile} {l : Ledger} {fromAddr toAddr : Address} {amount nonce : UInt64}
    (refused : l.verdict fromAddr toAddr amount nonce ≠ .ok ()) :
    ∃ e, l.transfer p fromAddr toAddr amount nonce = .returned l (.error e) := by
  cases result : l.verdict fromAddr toAddr amount nonce with
  | ok => exact absurd result refused
  | error e => exact ⟨e, transfer_of_error result⟩

/-- A transfer that is not covered changes nothing and says why. -/
theorem transfer_refused {p : Profile} {l : Ledger} {fromAddr toAddr : Address} {amount : UInt64}
    (refused : ¬ l.Covers fromAddr toAddr amount) :
    ∃ e, l.transfer p fromAddr toAddr amount (l.nextNonce fromAddr) = .returned l (.error e) :=
  transfer_of_not_ok fun ok => refused ((verdict_ok_iff ..).mp ok).1

/-- A covered transfer runs to its end or panics on one of its two
additions, each time with the debit already made. -/
theorem transfer_covered {p : Profile} {l : Ledger} {fromAddr toAddr : Address} {amount : UInt64}
    (covers : l.Covers fromAddr toAddr amount) :
    l.transfer p fromAddr toAddr amount (l.nextNonce fromAddr) =
      if p = .dev ∧ 2 ^ 64 ≤ (l.nextNonce fromAddr).toNat + 1 then
        .panicked (l.withdrawn fromAddr amount)
      else if p = .dev ∧ 2 ^ 64 ≤ l.funds toAddr + amount.toNat then
        .panicked (l.debited fromAddr amount)
      else .returned ((l.debited fromAddr amount).plus toAddr amount) (.ok ()) := by
  obtain ⟨sender, found, covered⟩ := covers.account
  obtain ⟨different, nonzero, _⟩ := covers
  have one : (1 : UInt64).toNat = 1 := rfl
  have entry := addToEntry_eq p (l.debited fromAddr amount) toAddr amount
  rw [funds_congr (account_debited_ne l different.symm amount)] at entry
  simp only [debited, found] at entry
  unfold transfer
  rw [if_neg different, if_neg nonzero, nextNonce_of_account found]
  simp only [found, ne_eq, not_true_eq_false, if_false, if_neg (UInt64.not_lt.mpr covered),
    Profile.add, one, withdrawn, debited]
  by_cases lastNonce : p = .dev ∧ 2 ^ 64 ≤ sender.nonce.toNat + 1
  · simp only [if_pos lastNonce]
  · simp only [if_neg lastNonce, entry]
    by_cases full : p = .dev ∧ 2 ^ 64 ≤ l.funds toAddr + amount.toNat
    · simp only [if_pos full]
    · simp only [if_neg full]

theorem account_register (l : Ledger) (a : Address) (balance : UInt64) (missing : l.account a = none) :
    (l.register a balance).1.account a = some (.new balance) := by
  simp only [register, missing, account_set_self]

/-- A new ledger knows the registered account only. -/
theorem account_register_ne {b : Address} (registered : Address) (balance : UInt64)
    (different : b ≠ registered) : (new.register registered balance).1.account b = none := by
  have missing : new.account registered = none := rfl
  simp only [register, missing]
  rw [account_set_ne _ different]
  rfl

end Ledger
end SecureExchange
