import Mathlib.Algebra.BigOperators.Group.List.Basic
import SecureExchange.NodeLaws

namespace SecureExchange
open Reactive

section Histories
variable {Peer : Type}

/-- The transactions of the `Ledger::credit` calls among some effects. -/
def creditsIn (effects : List (Effect Peer)) : List SignedTransaction :=
  effects.filterMap fun
    | .credited tx => some tx
    | _ => none

/-- The transactions that `send` applied to the ledger among some effects. -/
def transfersIn (effects : List (Effect Peer)) : List SignedTransaction :=
  effects.filterMap fun
    | .transferred tx => some tx
    | _ => none

def totalAmount (txs : List SignedTransaction) : Nat := (txs.map fun tx => tx.amount.toNat).sum

@[simp] theorem totalAmount_append (left right : List SignedTransaction) :
    totalAmount (left ++ right) = totalAmount left + totalAmount right := by
  simp [totalAmount]

@[simp] theorem totalAmount_nil : totalAmount [] = 0 := rfl

@[simp] theorem totalAmount_cons (tx : SignedTransaction) (rest : List SignedTransaction) :
    totalAmount (tx :: rest) = tx.amount.toNat + totalAmount rest := by
  simp [totalAmount]

@[simp] theorem creditsIn_append (left right : List (Effect Peer)) :
    creditsIn (left ++ right) = creditsIn left ++ creditsIn right := List.filterMap_append

@[simp] theorem transfersIn_append (left right : List (Effect Peer)) :
    transfersIn (left ++ right) = transfersIn left ++ transfersIn right := List.filterMap_append

theorem creditsIn_of_quiet {effects : List (Effect Peer)} (quiet : ∀ e ∈ effects, e.Quiet) :
    creditsIn effects = [] := by
  refine List.filterMap_eq_nil_iff.mpr fun e member => ?_
  have silent := quiet e member
  cases e with
  | credited tx => exact silent.elim
  | transferred | sendRequest | publish | sendResponse | println => rfl

theorem transfersIn_of_quiet {effects : List (Effect Peer)} (quiet : ∀ e ∈ effects, e.Quiet) :
    transfersIn effects = [] := by
  refine List.filterMap_eq_nil_iff.mpr fun e member => ?_
  have silent := quiet e member
  cases e with
  | transferred tx => exact silent.elim
  | credited | sendRequest | publish | sendResponse | println => rfl

end Histories

namespace Node
variable {C : Primitives} {Peer : Type}

/-- The transaction an event brings into the node, whether or not it is
kept: the decoded payload of a message, or the one a `send` passes on. -/
def handled (n : Node C Peer) : Event Peer → Option SignedTransaction
  | .stdin line now _ => n.payment line now
  | .gossip data => (SignedTransaction.fromRlpBytes data).toOption
  | .transferRequest _ request => (SignedTransaction.fromRlpBytes request.txRlp).toOption
  | _ => none

theorem admitted_spec {n : Node C Peer} {ev : Event Peer} {tx : SignedTransaction}
    (admits : n.admitted ev = some tx) :
    n.handled ev = some tx ∧ tx.Verified C ∧ tx.toAddr = n.wallet.address := by
  cases ev with
  | gossip data =>
    simp only [admitted] at admits
    split at admits
    · cases admits
    · rename_i found decoded
      split at admits
      · rename_i conditions
        cases admits
        exact ⟨by simp only [handled, decoded, Except.toOption], conditions.2⟩
      · cases admits
  | transferRequest peer request =>
    simp only [admitted] at admits
    split at admits
    · cases admits
    · rename_i found decoded
      split at admits
      · rename_i conditions
        cases admits
        exact ⟨by simp only [handled, decoded, Except.toOption], conditions⟩
      · cases admits
  | stdin | transferResponse | connectionEstablished | connectionClosed => cases admits

theorem payment_spec {n : Node C Peer} {line : String} {now : UInt64} {tx : SignedTransaction}
    (pays : n.payment line now = some tx) :
    tx.Verified C ∧ tx.fromAddr = n.wallet.address ∧ tx.nonce = n.ownNonce ∧
      n.ledger.Covers n.wallet.address tx.toAddr tx.amount := by
  unfold payment at pays
  split at pays
  · cases pays
  · simp only at pays
    split at pays
    · rename_i conditions
      cases pays
      exact ⟨conditions.1, rfl, rfl, conditions.2⟩
    · cases pays

/-- The transaction a command event makes the node pass on. -/
def paymentOf (n : Node C Peer) : Event Peer → Option SignedTransaction
  | .stdin line now _ => n.payment line now
  | _ => none

theorem stdin_of_paymentOf {n : Node C Peer} {ev : Event Peer} {tx : SignedTransaction}
    (pays : n.paymentOf ev = some tx) :
    ∃ line now publishOk, ev = .stdin line now publishOk ∧ n.payment line now = some tx := by
  cases ev with
  | stdin line now publishOk => exact ⟨line, now, publishOk, rfl, pays⟩
  | gossip | transferRequest | transferResponse | connectionEstablished | connectionClosed => cases pays

theorem paymentOf_eq_none {n : Node C Peer} {ev : Event Peer}
    (unpaid : ∀ line now publishOk, ev = .stdin line now publishOk → n.payment line now = none) :
    n.paymentOf ev = none := by
  cases ev with
  | stdin line now publishOk => exact unpaid line now publishOk rfl
  | gossip | transferRequest | transferResponse | connectionEstablished | connectionClosed => rfl

theorem paymentOf_of_admitted {n : Node C Peer} {ev : Event Peer} {tx : SignedTransaction}
    (admits : n.admitted ev = some tx) : n.paymentOf ev = none := by
  cases ev with
  | stdin => cases admits
  | gossip | transferRequest | transferResponse | connectionEstablished | connectionClosed => rfl

theorem ownFunds_received (n : Node C Peer) (tx : SignedTransaction) :
    (n.received tx).ownFunds = (n.ownFunds + tx.amount.toNat) % 2 ^ 64 :=
  n.ledger.funds_plus_self n.wallet.address tx.amount

theorem ownNonce_received (n : Node C Peer) (tx : SignedTransaction) :
    (n.received tx).ownNonce = n.ownNonce :=
  n.ledger.nextNonce_plus n.wallet.address n.wallet.address tx.amount

/-- Paying takes exactly the amount out of the own account: the recipient
is another account, also in the sender's own ledger. -/
theorem ownFunds_paid {n : Node C Peer} {tx : SignedTransaction}
    (covers : n.ledger.Covers n.wallet.address tx.toAddr tx.amount) :
    (n.paid tx).ownFunds + tx.amount.toNat = n.ownFunds := by
  have own : (n.paid tx).ownFunds = (n.ledger.debited n.wallet.address tx.amount).funds n.wallet.address :=
    Ledger.funds_congr (Ledger.account_plus_ne _ covers.1 _)
  rw [own]
  exact covers.funds_debited

theorem ownNonce_paid {n : Node C Peer} {tx : SignedTransaction}
    (covers : n.ledger.Covers n.wallet.address tx.toAddr tx.amount) :
    (n.paid tx).ownNonce = n.ownNonce + 1 := by
  have own : (n.paid tx).ownNonce =
      (n.ledger.debited n.wallet.address tx.amount).nextNonce n.wallet.address :=
    Ledger.nextNonce_plus _ _ _ _
  rw [own]
  exact covers.nextNonce_debited

variable [DecidableEq Peer]

/-- An admitted transaction is credited, or its addition panics with the
node as it was. -/
theorem handle_of_admitted (p : Profile) {n : Node C Peer} {ev : Event Peer} {tx : SignedTransaction}
    (admits : n.admitted ev = some tx) :
    (p = .dev ∧ ¬ n.CreditFits tx ∧ n.handle p ev = ⟨n, [.credited tx], true⟩) ∨
      ((p = .dev → n.CreditFits tx) ∧ ∃ report, (∀ e ∈ report, e.Quiet) ∧
        n.handle p ev = ⟨n.received tx, .credited tx :: report, false⟩) := by
  have unpaid := paymentOf_of_admitted admits
  generalize reaction : n.handle p ev = r
  have outcome := n.handle_outcome p ev
  rw [reaction] at outcome
  cases outcome with
  | @credited ev other report admits' fits quiet =>
    cases admits.symm.trans admits'
    exact Or.inr ⟨fits, report, quiet, rfl⟩
  | @creditPanic ev other admits' dev full =>
    cases admits.symm.trans admits'
    exact Or.inl ⟨dev, full, rfl⟩
  | paid pays | payPanic pays => rw [paymentOf, pays] at unpaid; cases unpaid
  | witnessed decoded fresh verified other =>
    simp only [admitted, decoded, other, and_false, if_false] at admits
    cases admits
  | quiet unpaid' unadmitted => rw [unadmitted] at admits; cases admits

/-- A payment is applied and sent, or one of its additions panics with the
debit already made and nothing sent. -/
theorem handle_of_paymentOf (p : Profile) {n : Node C Peer} {ev : Event Peer} {tx : SignedTransaction}
    (pays : n.paymentOf ev = some tx) :
    (p = .dev ∧ ¬ n.PaymentFits tx ∧ ∃ ledger, (ledger = n.ledger.withdrawn n.wallet.address tx.amount ∨
        ledger = n.ledger.debited n.wallet.address tx.amount) ∧
        n.handle p ev = ⟨{ n with ledger }, [], true⟩) ∨
      ((p = .dev → n.PaymentFits tx) ∧ ∃ line now publishOk report, ev = .stdin line now publishOk ∧
        (∀ e ∈ report, e.Quiet) ∧
        n.handle p ev = ⟨n.paid tx, .transferred tx :: .sendRequest n.connectedPeers ⟨tx.toRlpBytes⟩ ::
          .publish txTopic tx.toRlpBytes publishOk :: report, false⟩) := by
  generalize reaction : n.handle p ev = r
  have outcome := n.handle_outcome p ev
  rw [reaction] at outcome
  cases outcome with
  | @paid line now publishOk other report pays' fits quiet =>
    cases pays.symm.trans pays'
    exact Or.inr ⟨fits, line, now, publishOk, report, rfl, quiet, rfl⟩
  | @payPanic line now publishOk other ledger pays' dev full partway =>
    cases pays.symm.trans pays'
    exact Or.inl ⟨dev, full, ledger, partway, rfl⟩
  | credited admits | creditPanic admits =>
    rw [paymentOf_of_admitted admits] at pays
    cases pays
  | witnessed => cases pays
  | quiet unpaid => rw [paymentOf_eq_none unpaid] at pays; cases pays

/-- An event that neither pays nor credits leaves the ledger alone and
sends no transaction. -/
theorem handle_of_idle (p : Profile) {n : Node C Peer} {ev : Event Peer} (unpaid : n.paymentOf ev = none)
    (unadmitted : n.admitted ev = none) :
    (n.handle p ev).halted = false ∧ (n.handle p ev).state.ledger = n.ledger ∧
      ∀ e ∈ (n.handle p ev).output, e.Quiet := by
  generalize reaction : n.handle p ev = r
  have outcome := n.handle_outcome p ev
  rw [reaction] at outcome
  cases outcome with
  | paid pays | payPanic pays => rw [paymentOf, pays] at unpaid; cases unpaid
  | credited admits | creditPanic admits => rw [admits] at unadmitted; cases unadmitted
  | witnessed => exact ⟨rfl, rfl, by simp⟩
  | quiet _ _ quiet => exact ⟨rfl, rfl, quiet⟩

/-- An event credits exactly what it admits. -/
theorem creditsIn_handle (p : Profile) (n : Node C Peer) (ev : Event Peer) :
    creditsIn (n.handle p ev).output = (n.admitted ev).toList := by
  generalize reaction : n.handle p ev = r
  have outcome := n.handle_outcome p ev
  rw [reaction] at outcome
  cases outcome with
  | @paid line now publishOk tx report pays fits quiet =>
    have rest := creditsIn_of_quiet quiet
    simpa [creditsIn, admitted] using rest
  | payPanic => rfl
  | @credited ev tx report admits fits quiet =>
    have rest := creditsIn_of_quiet quiet
    rw [admits]
    simpa [creditsIn] using rest
  | creditPanic admits =>
    rw [admits]
    rfl
  | @witnessed data tx decoded fresh verified other =>
    simp only [admitted, decoded, other, and_false, if_false]
    rfl
  | quiet unpaid unadmitted quiet =>
    rw [unadmitted, creditsIn_of_quiet quiet]
    rfl

theorem wallet_handle (p : Profile) (n : Node C Peer) (ev : Event Peer) :
    (n.handle p ev).state.wallet = n.wallet := by
  generalize reaction : n.handle p ev = r
  have outcome := n.handle_outcome p ev
  rw [reaction] at outcome
  cases outcome with
  | paid | payPanic | credited | creditPanic | witnessed | quiet => rfl

theorem transfersIn_handle {p : Profile} {n : Node C Peer} {ev : Event Peer}
    (live : (n.handle p ev).halted = false) :
    transfersIn (n.handle p ev).output = (n.paymentOf ev).toList := by
  generalize reaction : n.handle p ev = r at live
  have outcome := n.handle_outcome p ev
  rw [reaction] at outcome
  cases outcome with
  | @paid line now publishOk tx report pays fits quiet =>
    have rest := transfersIn_of_quiet quiet
    rw [paymentOf, pays]
    simpa [transfersIn] using rest
  | payPanic => cases live
  | @credited ev tx report admits fits quiet =>
    have rest := transfersIn_of_quiet quiet
    rw [paymentOf_of_admitted admits]
    simpa [transfersIn] using rest
  | creditPanic => cases live
  | witnessed => rfl
  | quiet unpaid unadmitted quiet =>
    rw [paymentOf_eq_none unpaid, transfersIn_of_quiet quiet]
    rfl

/-- A handler that panics has not passed anything on. -/
theorem transfersIn_handle_halted {p : Profile} {n : Node C Peer} {ev : Event Peer}
    (halted : (n.handle p ev).halted = true) : transfersIn (n.handle p ev).output = [] := by
  generalize reaction : n.handle p ev = r at halted
  have outcome := n.handle_outcome p ev
  rw [reaction] at outcome
  cases outcome with
  | paid | credited | witnessed | quiet => cases halted
  | payPanic | creditPanic => rfl

/-- What `send` passes on is the payment it signed, and verifies. -/
theorem paymentOf_of_transferred {p : Profile} {n : Node C Peer} {ev : Event Peer} {tx : SignedTransaction}
    (sent : tx ∈ transfersIn (n.handle p ev).output) : n.paymentOf ev = some tx := by
  cases live : (n.handle p ev).halted with
  | true => rw [transfersIn_handle_halted live] at sent; cases sent
  | false =>
    rw [transfersIn_handle live] at sent
    exact Option.mem_toList.mp sent

theorem verified_of_transferred {p : Profile} {n : Node C Peer} {ev : Event Peer} {tx : SignedTransaction}
    (sent : tx ∈ transfersIn (n.handle p ev).output) : tx.Verified C := by
  have pays := paymentOf_of_transferred sent
  cases ev with
  | stdin line now publishOk => exact (payment_spec pays).1
  | gossip | transferRequest | transferResponse | connectionEstablished | connectionClosed => cases pays

theorem cache_handle_subset (p : Profile) (n : Node C Peer) (ev : Event Peer) :
    n.txCache ⊆ (n.handle p ev).state.txCache := by
  generalize reaction : n.handle p ev = r
  have outcome := n.handle_outcome p ev
  rw [reaction] at outcome
  cases outcome with
  | paid | credited | witnessed => exact Finset.subset_insert _ _
  | payPanic | creditPanic | quiet => exact Finset.Subset.refl _

/-- A hash enters the cache with the transaction an event handles, and if
that is addressed to this node, only when it is credited. -/
theorem cache_handle_new {p : Profile} {n : Node C Peer} {ev : Event Peer} {h : String}
    (member : h ∈ (n.handle p ev).state.txCache) :
    h ∈ n.txCache ∨ ∃ tx, n.handled ev = some tx ∧ tx.hash C = h ∧
      (tx.toAddr = n.wallet.address → n.admitted ev = some tx) := by
  generalize reaction : n.handle p ev = r at member
  have outcome := n.handle_outcome p ev
  rw [reaction] at outcome
  cases outcome with
  | @paid line now publishOk tx report pays fits quiet =>
    rcases Finset.mem_insert.mp member with rfl | old
    · have covers := (payment_spec pays).2.2.2
      exact Or.inr ⟨tx, pays, rfl, fun own => absurd own.symm covers.1⟩
    · exact Or.inl old
  | @credited ev tx report admits fits quiet =>
    rcases Finset.mem_insert.mp member with rfl | old
    · exact Or.inr ⟨tx, (admitted_spec admits).1, rfl, fun _ => admits⟩
    · exact Or.inl old
  | @witnessed data tx decoded fresh verified other =>
    rcases Finset.mem_insert.mp member with rfl | old
    · refine Or.inr ⟨tx, ?_, rfl, fun own => absurd own other⟩
      simp only [handled, decoded, Except.toOption]
    · exact Or.inl old
  | payPanic | creditPanic | quiet => exact Or.inl member

/-- What is credited is remembered. -/
theorem cached_of_admitted {p : Profile} {n : Node C Peer} {ev : Event Peer} {tx : SignedTransaction}
    (admits : n.admitted ev = some tx) (live : (n.handle p ev).halted = false) :
    tx.hash C ∈ (n.handle p ev).state.txCache := by
  rcases handle_of_admitted p admits with ⟨_, _, reaction⟩ | ⟨_, report, _, reaction⟩
  · rw [reaction] at live
    cases live
  · rw [reaction]
    exact Finset.mem_insert_self _ _

/-- The own account never holds more than what arrived leaves after what
was sent, whatever the build does on overflow. -/
theorem ownFunds_handle_le (p : Profile) (n : Node C Peer) (ev : Event Peer) :
    (n.handle p ev).state.ownFunds + totalAmount (transfersIn (n.handle p ev).output) ≤
      n.ownFunds + totalAmount (creditsIn (n.handle p ev).output) := by
  generalize reaction : n.handle p ev = r
  have outcome := n.handle_outcome p ev
  rw [reaction] at outcome
  cases outcome with
  | @paid line now publishOk tx report pays fits quiet =>
    have rest := transfersIn_of_quiet quiet
    have funds := ownFunds_paid (payment_spec pays).2.2.2
    have sent : transfersIn (Effect.transferred tx :: .sendRequest n.connectedPeers ⟨tx.toRlpBytes⟩ ::
        .publish txTopic tx.toRlpBytes publishOk :: report) = [tx] := by
      simpa [transfersIn] using rest
    rw [sent]
    simp only [totalAmount_cons, totalAmount_nil]
    omega
  | @payPanic line now publishOk tx ledger pays checked full partway =>
    have covers := (payment_spec pays).2.2.2
    have left : ledger.funds n.wallet.address ≤ n.ownFunds := by
      rw [ownFunds]
      rcases partway with rfl | rfl
      · have funds := covers.funds_withdrawn
        omega
      · have funds := covers.funds_debited
        omega
    exact left
  | @credited ev tx report admits fits quiet =>
    have sent := transfersIn_of_quiet quiet
    have rest := creditsIn_of_quiet quiet
    have funds := n.ownFunds_received tx
    have small := Nat.mod_le (n.ownFunds + tx.amount.toNat) (2 ^ 64)
    have noTransfer : transfersIn (Effect.credited tx :: report) = [] := by
      simpa [transfersIn] using sent
    have oneCredit : creditsIn (Effect.credited tx :: report) = [tx] := by
      simpa [creditsIn] using rest
    rw [noTransfer, oneCredit]
    simp only [totalAmount_cons, totalAmount_nil]
    omega
  | creditPanic => exact Nat.le_add_right _ _
  | witnessed => exact le_rfl
  | quiet unpaid unadmitted quiet =>
    rw [transfersIn_of_quiet quiet, creditsIn_of_quiet quiet]
    exact le_rfl

end Node
end SecureExchange
