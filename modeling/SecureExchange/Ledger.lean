import Mathlib.Data.Finmap
import SecureExchange.Wallet

namespace SecureExchange

/-- How the crate was built: with overflow checks, or with wrapping sums. -/
inductive Profile where
  | dev
  | release
deriving DecidableEq, Repr

/-- A `u64` addition as the build performs it; `none` is the overflow panic. -/
def Profile.add (p : Profile) (x y : UInt64) : Option UInt64 :=
  if p = .dev ∧ 2 ^ 64 ≤ x.toNat + y.toNat then none else some (x + y)

theorem toNat_add_of_fits {x y : UInt64} (fits : x.toNat + y.toNat < 2 ^ 64) :
    (x + y).toNat = x.toNat + y.toNat := by
  rw [UInt64.toNat_add, Nat.mod_eq_of_lt fits]

/-- A call that works on a state in place. A panic leaves the state as far
as the call had got with it. -/
inductive Call (σ α : Type) where
  | returned (state : σ) (value : α)
  | panicked (state : σ)

/-- The state a call leaves, however it ends. -/
def Call.state {σ α : Type} : Call σ α → σ
  | .returned s _ => s
  | .panicked s => s

inductive LedgerError where
  | insufficientBalance (have_ need : UInt64)
  | invalidNonce (expected got : UInt64)
  | addressNotFound (address : Address)
  | selfTransfer
  | zeroValue
deriving DecidableEq, Repr

def LedgerError.display : LedgerError → String
  | .insufficientBalance have_ need => s!"Insufficient balance: have {have_}, need {need}"
  | .invalidNonce expected got => s!"Invalid nonce: expected {expected}, got {got}"
  | .addressNotFound address => "Address not found: " ++ hexString address.bytes
  | .selfTransfer => "Self-transfer is not allowed"
  | .zeroValue => "Zero-value transfer is not allowed"

structure AccountState where
  balance : UInt64
  nonce : UInt64
deriving DecidableEq, Repr

def AccountState.new (initialBalance : UInt64) : AccountState := ⟨initialBalance, 0⟩

/-- The accounts a node knows. One caller at a time, so the transfer lock
is always free. -/
structure Ledger where
  accounts : Finmap fun _ : Address => AccountState
deriving DecidableEq

namespace Ledger

def new : Ledger := ⟨∅⟩

def account (l : Ledger) (address : Address) : Option AccountState := l.accounts.lookup address

def set (l : Ledger) (address : Address) (state : AccountState) : Ledger :=
  ⟨l.accounts.insert address state⟩

/-- Open an account with a balance; an existing account stays as it is. -/
def register (l : Ledger) (address : Address) (initialBalance : UInt64) : Ledger × Bool :=
  match l.account address with
  | none => (l.set address (.new initialBalance), true)
  | some _ => (l, false)

def balance (l : Ledger) (address : Address) : Option UInt64 := (l.account address).map (·.balance)

def nonce (l : Ledger) (address : Address) : Option UInt64 := (l.account address).map (·.nonce)

/-- Add to the balance of an entry, creating it when it is missing. -/
def addToEntry (p : Profile) (l : Ledger) (address : Address) (amount : UInt64) : Call Ledger Unit :=
  match l.account address with
  | some a =>
    match p.add a.balance amount with
    | some balance => .returned (l.set address { a with balance }) ()
    | none => .panicked l
  | none => .returned (l.set address (.new amount)) ()

/-- Debit `fromAddr`, bump its nonce, then credit `toAddr`. The debit is
already in the map when the nonce or the credit is added. -/
def transfer (p : Profile) (l : Ledger) (fromAddr toAddr : Address) (amount nonce : UInt64) :
    Call Ledger (Except LedgerError Unit) :=
  if fromAddr = toAddr then .returned l (.error .selfTransfer)
  else if amount = 0 then .returned l (.error .zeroValue)
  else
    match l.account fromAddr with
    | none => .returned l (.error (.addressNotFound fromAddr))
    | some sender =>
      if sender.nonce ≠ nonce then .returned l (.error (.invalidNonce sender.nonce nonce))
      else if sender.balance < amount then
        .returned l (.error (.insufficientBalance sender.balance amount))
      else
        let debited : AccountState := { sender with balance := sender.balance - amount }
        match p.add sender.nonce 1 with
        | none => .panicked (l.set fromAddr debited)
        | some bumped =>
          match (l.set fromAddr { debited with nonce := bumped }).addToEntry p toAddr amount with
          | .panicked l' => .panicked l'
          | .returned l' () => .returned l' (.ok ())

/-- Credit a received transfer. -/
def credit (p : Profile) (l : Ledger) (address : Address) (amount : UInt64) : Call Ledger Unit :=
  l.addToEntry p address amount

end Ledger

end SecureExchange
