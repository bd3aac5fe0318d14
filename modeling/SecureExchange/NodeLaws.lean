import SecureExchange.LedgerLaws
import SecureExchange.Node

namespace SecureExchange
open Reactive

/-- The address and amount of a well-formed `send` line. -/
def parseSend (line : String) : Option (Address × UInt64) :=
  match splitWhitespace (trim line.toList) with
  | [word, address, amount] =>
    if String.ofList word = "send" ∨ String.ofList word = "transfer" then
      match addressFromHex address, parseU64 amount with
      | .ok toAddr, some amount => some (toAddr, amount)
      | _, _ => none
    else none
  | _ => none

/-- Effects that only print or answer a request. -/
def Effect.Quiet {Peer : Type} : Effect Peer → Prop
  | .println _ | .sendResponse _ _ => True
  | _ => False

namespace SignedTransaction

def Verified (C : Primitives) (tx : SignedTransaction) : Prop := tx.verify C = .ok ()

instance (C : Primitives) (tx : SignedTransaction) : Decidable (tx.Verified C) :=
  match h : tx.verify C with
  | .ok () => isTrue h
  | .error _ => isFalse fun verified => by rw [Verified, h] at verified; cases verified

end SignedTransaction

namespace Node
variable {C : Primitives} {Peer : Type}

def ownFunds (n : Node C Peer) : Nat := n.ledger.funds n.wallet.address

def ownNonce (n : Node C Peer) : UInt64 := n.ledger.nextNonce n.wallet.address

/-- The transaction a `send` line makes the node pass on, if it does. -/
def payment (n : Node C Peer) (line : String) (now : UInt64) : Option SignedTransaction :=
  match parseSend line with
  | none => none
  | some (toAddr, amount) =>
    let tx := SignedTransaction.create n.wallet toAddr amount n.ownNonce now
    if tx.Verified C ∧ n.ledger.Covers n.wallet.address toAddr amount then some tx else none

/-- The decoded transaction of a payload that the node credits. -/
def admitted (n : Node C Peer) : Event Peer → Option SignedTransaction
  | .gossip data =>
    match SignedTransaction.fromRlpBytes data with
    | .error _ => none
    | .ok tx =>
      if tx.hash C ∉ n.txCache ∧ tx.Verified C ∧ tx.toAddr = n.wallet.address then some tx else none
  | .transferRequest _ request =>
    match SignedTransaction.fromRlpBytes request.txRlp with
    | .error _ => none
    | .ok tx => if tx.Verified C ∧ tx.toAddr = n.wallet.address then some tx else none
  | _ => none

/-- Neither addition of an outgoing transfer overflows. -/
def PaymentFits (n : Node C Peer) (tx : SignedTransaction) : Prop :=
  n.ownNonce.toNat + 1 < 2 ^ 64 ∧ n.ledger.funds tx.toAddr + tx.amount.toNat < 2 ^ 64

/-- The addition of an incoming transfer does not overflow. -/
def CreditFits (n : Node C Peer) (tx : SignedTransaction) : Prop :=
  n.ownFunds + tx.amount.toNat < 2 ^ 64

instance (n : Node C Peer) (tx : SignedTransaction) : Decidable (n.PaymentFits tx) :=
  inferInstanceAs (Decidable (_ ∧ _))

instance (n : Node C Peer) (tx : SignedTransaction) : Decidable (n.CreditFits tx) :=
  inferInstanceAs (Decidable (_ < _))

def paid (n : Node C Peer) (tx : SignedTransaction) : Node C Peer :=
  { n with
    ledger := (n.ledger.debited n.wallet.address tx.amount).plus tx.toAddr tx.amount
    txCache := insert (tx.hash C) n.txCache }

def received (n : Node C Peer) (tx : SignedTransaction) : Node C Peer :=
  { n with
    ledger := n.ledger.plus n.wallet.address tx.amount
    txCache := insert (tx.hash C) n.txCache }

/-- Everything that handling an event can do. -/
inductive Outcome (p : Profile) (n : Node C Peer) :
    Event Peer → Reaction (Node C Peer) (Effect Peer) → Prop
  | paid {line now publishOk tx report} (pays : n.payment line now = some tx)
      (fits : p = .dev → n.PaymentFits tx) (quiet : ∀ e ∈ report, e.Quiet) :
      Outcome p n (.stdin line now publishOk)
        ⟨n.paid tx, .transferred tx :: .sendRequest n.connectedPeers ⟨tx.toRlpBytes⟩ ::
          .publish txTopic tx.toRlpBytes publishOk :: report, false⟩
  | payPanic {line now publishOk tx ledger} (pays : n.payment line now = some tx)
      (checked : p = .dev) (full : ¬ n.PaymentFits tx)
      (partway : ledger = n.ledger.withdrawn n.wallet.address tx.amount ∨
        ledger = n.ledger.debited n.wallet.address tx.amount) :
      Outcome p n (.stdin line now publishOk) ⟨{ n with ledger }, [], true⟩
  | credited {ev tx report} (admits : n.admitted ev = some tx)
      (fits : p = .dev → n.CreditFits tx) (quiet : ∀ e ∈ report, e.Quiet) :
      Outcome p n ev ⟨n.received tx, .credited tx :: report, false⟩
  | creditPanic {ev tx} (admits : n.admitted ev = some tx) (checked : p = .dev)
      (full : ¬ n.CreditFits tx) : Outcome p n ev ⟨n, [.credited tx], true⟩
  | witnessed {data tx} (decoded : SignedTransaction.fromRlpBytes data = .ok tx)
      (fresh : tx.hash C ∉ n.txCache) (verified : tx.Verified C)
      (other : tx.toAddr ≠ n.wallet.address) :
      Outcome p n (.gossip data) ⟨{ n with txCache := insert (tx.hash C) n.txCache }, [], false⟩
  | quiet {ev peers report}
      (unpaid : ∀ line now publishOk, ev = .stdin line now publishOk → n.payment line now = none)
      (unadmitted : n.admitted ev = none) (quiet : ∀ e ∈ report, e.Quiet) :
      Outcome p n ev ⟨{ n with connectedPeers := peers }, report, false⟩

theorem quiet_prints (texts : List String) :
    ∀ e ∈ texts.map (Effect.println : String → Effect Peer), e.Quiet := by
  intro e member
  obtain ⟨text, _, rfl⟩ := List.mem_map.mp member
  trivial

/-- A line that is not a well-formed `send` only prints. -/
theorem handleCommand_of_other (p : Profile) (n : Node C Peer) {line : String} (now : UInt64)
    (publishOk : Bool) (other : parseSend line = none) :
    ∃ texts : List String, n.handleCommand p line now publishOk = ⟨n, texts.map .println, false⟩ := by
  unfold parseSend at other
  unfold handleCommand
  cases parts : splitWhitespace (trim line.toList) with
  | nil => exact ⟨[], rfl⟩
  | cons word arguments =>
    rw [parts] at other
    simp only
    split
    · rename_i sends
      split
      · rename_i address amount
        simp only [if_pos sends] at other
        cases parsed : addressFromHex address with
        | error e => exact ⟨[_], rfl⟩
        | ok toAddr =>
          cases value : parseU64 amount with
          | none => exact ⟨[_], rfl⟩
          | some amount => simp [parsed, value] at other
      · exact ⟨[_], rfl⟩
    · split
      · exact ⟨[_], rfl⟩
      · split
        · exact ⟨[], rfl⟩
        · split
          · exact ⟨helpText, rfl⟩
          · exact ⟨[_], rfl⟩

theorem handleCommand_of_send {n : Node C Peer} {p : Profile} {line : String} {now : UInt64}
    {publishOk : Bool} {toAddr : Address} {amount : UInt64} (send : parseSend line = some (toAddr, amount)) :
    n.handleCommand p line now publishOk = n.sendTransfer p toAddr amount now publishOk := by
  unfold parseSend at send
  split at send
  · rename_i word address value parts
    split at send
    · rename_i sends
      split at send
      · rename_i found number parsed amountParsed
        cases send
        unfold handleCommand
        simp only [parts, if_pos sends, parsed, amountParsed]
      · cases send
    · cases send
  · cases send

theorem payment_of_send (n : Node C Peer) {line : String} (now : UInt64) {toAddr : Address}
    {amount : UInt64} (send : parseSend line = some (toAddr, amount)) :
    n.payment line now =
      if (SignedTransaction.create n.wallet toAddr amount n.ownNonce now).Verified C ∧
          n.ledger.Covers n.wallet.address toAddr amount
      then some (.create n.wallet toAddr amount n.ownNonce now) else none := by
  simp only [payment, send]

theorem quiet_of_refused {p : Profile} {n : Node C Peer} {line : String} {now : UInt64} {publishOk : Bool}
    {report : List (Effect Peer)} (refused : n.payment line now = none) (quiet : ∀ e ∈ report, e.Quiet) :
    Outcome p n (.stdin line now publishOk) ⟨n, report, false⟩ := by
  refine Outcome.quiet ?_ rfl quiet
  intro otherLine otherNow otherOk same
  cases same
  exact refused

/-- An own transfer that verifies and is covered is applied, then sent. -/
theorem sendTransfer_covered {p : Profile} {n : Node C Peer} {line : String} {now : UInt64}
    {publishOk : Bool} {toAddr : Address} {amount : UInt64} {tx : SignedTransaction}
    (pays : n.payment line now = some tx) (made : tx = .create n.wallet toAddr amount n.ownNonce now)
    (verified : tx.verify C = .ok ()) (covers : n.ledger.Covers n.wallet.address toAddr amount) :
    Outcome p n (.stdin line now publishOk) (n.sendTransfer p toAddr amount now publishOk) := by
  have atAmount : tx.amount = amount := by rw [made]; rfl
  have atReceiver : tx.toAddr = toAddr := by rw [made]; rfl
  have checked := n.ledger.transfer_covered (p := p) covers
  have atNonce : (n.ledger.nonce n.wallet.address).getD 0 = n.ownNonce := rfl
  have fold : n.ledger.nextNonce n.wallet.address = n.ownNonce := rfl
  unfold sendTransfer
  simp only [atNonce, ← made, verified]
  rw [fold] at checked
  by_cases lastNonce : p = .dev ∧ 2 ^ 64 ≤ n.ownNonce.toNat + 1
  · rw [if_pos lastNonce] at checked
    rw [checked]
    exact .payPanic pays lastNonce.1 (fun fits => by have := fits.1; omega)
      (Or.inl (by rw [atAmount]))
  rw [if_neg lastNonce] at checked
  by_cases full : p = .dev ∧ 2 ^ 64 ≤ n.ledger.funds toAddr + amount.toNat
  · rw [if_pos full] at checked
    rw [checked]
    refine .payPanic pays full.1 (fun fits => ?_) (Or.inr (by rw [atAmount]))
    have bound := fits.2
    rw [atAmount, atReceiver] at bound
    omega
  rw [if_neg full] at checked
  rw [checked]
  have state : n.paid tx = { n with
      ledger := (n.ledger.debited n.wallet.address amount).plus toAddr amount
      txCache := insert (tx.hash C) n.txCache } := by
    simp only [paid, atAmount, atReceiver]
  have fits : p = .dev → n.PaymentFits tx := by
    intro dev
    rw [PaymentFits, atAmount, atReceiver]
    exact ⟨Nat.lt_of_not_le fun large => lastNonce ⟨dev, large⟩, Nat.lt_of_not_le fun large => full ⟨dev, large⟩⟩
  simp only [← state]
  refine .paid pays fits ?_
  split
  · exact quiet_prints [_]
  · exact quiet_prints [_, _]

theorem sendTransfer_outcome (p : Profile) (n : Node C Peer) {line : String} (now : UInt64)
    (publishOk : Bool) {toAddr : Address} {amount : UInt64}
    (send : parseSend line = some (toAddr, amount)) :
    Outcome p n (.stdin line now publishOk) (n.sendTransfer p toAddr amount now publishOk) := by
  have answer := payment_of_send n now send
  by_cases verified : (SignedTransaction.create n.wallet toAddr amount n.ownNonce now).verify C = .ok ()
  · by_cases covers : n.ledger.Covers n.wallet.address toAddr amount
    · rw [if_pos ⟨verified, covers⟩] at answer
      exact sendTransfer_covered answer rfl verified covers
    · rw [if_neg fun both => covers both.2] at answer
      obtain ⟨e, refused⟩ := n.ledger.transfer_refused (p := p) covers
      have atNonce : (n.ledger.nonce n.wallet.address).getD 0 = n.ledger.nextNonce n.wallet.address := rfl
      have ok : (SignedTransaction.create n.wallet toAddr amount
          (n.ledger.nextNonce n.wallet.address) now).verify C = .ok () := verified
      unfold sendTransfer
      simp only [atNonce, ok, refused]
      exact quiet_of_refused answer (quiet_prints [_])
  · rw [if_neg fun both => verified both.1] at answer
    have stays : n.sendTransfer p toAddr amount now publishOk = .stay n := by
      unfold sendTransfer
      cases result : (SignedTransaction.create n.wallet toAddr amount n.ownNonce now).verify C with
      | ok => exact absurd result verified
      | error e =>
        have same : (SignedTransaction.create n.wallet toAddr amount
            ((n.ledger.nonce n.wallet.address).getD 0) now).verify C = .error e := result
        simp only [same]
    rw [stays]
    exact quiet_of_refused answer (by simp)

theorem quiet_of_unadmitted {p : Profile} {n : Node C Peer} {ev : Event Peer}
    {report : List (Effect Peer)} (network : ∀ line now publishOk, ev ≠ .stdin line now publishOk)
    (unadmitted : n.admitted ev = none) (quiet : ∀ e ∈ report, e.Quiet) :
    Outcome p n ev ⟨n, report, false⟩ :=
  Outcome.quiet (fun line now publishOk same => absurd same (network line now publishOk))
    unadmitted quiet

/-- Crediting an admitted transaction either completes or panics before
anything has changed. -/
theorem credit_eq (p : Profile) (n : Node C Peer) (tx : SignedTransaction)
    (here : tx.toAddr = n.wallet.address) :
    (p = .dev ∧ ¬ n.CreditFits tx ∧ n.ledger.credit p tx.toAddr tx.amount = .panicked n.ledger) ∨
      ((p = .dev → n.CreditFits tx) ∧
        n.ledger.credit p tx.toAddr tx.amount = .returned (n.ledger.plus n.wallet.address tx.amount) ()) := by
  have sum := n.ledger.addToEntry_eq p n.wallet.address tx.amount
  rw [Ledger.credit, here, CreditFits, ownFunds]
  by_cases full : p = .dev ∧ 2 ^ 64 ≤ n.ledger.funds n.wallet.address + tx.amount.toNat
  · rw [if_pos full] at sum
    exact Or.inl ⟨full.1, by omega, sum⟩
  · rw [if_neg full] at sum
    exact Or.inr ⟨fun dev => Nat.lt_of_not_le fun large => full ⟨dev, large⟩, sum⟩

theorem handleGossip_outcome (p : Profile) (n : Node C Peer) (data : List UInt8) :
    Outcome p n (.gossip data) (n.handleGossip p data) := by
  unfold handleGossip
  cases decoded : SignedTransaction.fromRlpBytes data with
  | error e => exact quiet_of_unadmitted (by simp) (by simp only [admitted, decoded]) (by simp)
  | ok tx =>
    simp only
    by_cases seen : tx.hash C ∈ n.txCache
    · rw [if_pos seen]
      refine quiet_of_unadmitted (by simp) ?_ (by simp)
      simp only [admitted, decoded, seen, not_true_eq_false, false_and, if_false]
    rw [if_neg seen]
    cases verified : tx.verify C with
    | error e =>
      refine quiet_of_unadmitted (by simp) ?_ (by simp)
      simp only [admitted, decoded, SignedTransaction.Verified, verified, reduceCtorEq, false_and,
        and_false, if_false]
    | ok =>
      simp only
      by_cases here : tx.toAddr = n.wallet.address
      · rw [if_pos here]
        have admits : n.admitted (.gossip data) = some tx := by
          simp only [admitted, decoded]
          exact if_pos ⟨seen, verified, here⟩
        rcases credit_eq p n tx here with ⟨dev, full, result⟩ | ⟨fits, result⟩
        · rw [result]
          exact .creditPanic admits dev full
        · rw [result]
          exact .credited admits fits (quiet_prints [_])
      · rw [if_neg here]
        exact .witnessed decoded seen verified here

theorem handleTransferRequest_outcome (p : Profile) (n : Node C Peer) (peer : Peer)
    (request : TransferRequest) :
    Outcome p n (.transferRequest peer request) (n.handleTransferRequest p peer request) := by
  have quietResponse : ∀ response : TransferResponse, ∀ e ∈ [Effect.sendResponse peer response], e.Quiet := by
    intro response e member
    rw [List.mem_singleton] at member
    subst member
    trivial
  unfold handleTransferRequest
  cases decoded : SignedTransaction.fromRlpBytes request.txRlp with
  | error e =>
    exact quiet_of_unadmitted (by simp) (by simp only [admitted, decoded]) (quietResponse _)
  | ok tx =>
    simp only
    cases verified : tx.verify C with
    | error e =>
      refine quiet_of_unadmitted (by simp) ?_ (quietResponse _)
      simp only [admitted, decoded, SignedTransaction.Verified, verified, reduceCtorEq, false_and, if_false]
    | ok =>
      simp only
      by_cases here : tx.toAddr = n.wallet.address
      · rw [if_neg (not_not.mpr here)]
        have admits : n.admitted (.transferRequest peer request) = some tx := by
          simp only [admitted, decoded]
          exact if_pos ⟨verified, here⟩
        rcases credit_eq p n tx here with ⟨dev, full, result⟩ | ⟨fits, result⟩
        · rw [result]
          exact .creditPanic admits dev full
        · rw [result]
          refine .credited admits fits ?_
          simp [Effect.Quiet]
      · rw [if_pos here]
        refine quiet_of_unadmitted (by simp) ?_ (quietResponse _)
        simp only [admitted, decoded, here, and_false, if_false]

/-- Every turn of the event loop has one of the listed outcomes. -/
theorem handle_outcome [DecidableEq Peer] (p : Profile) (n : Node C Peer) (ev : Event Peer) :
    Outcome p n ev (n.handle p ev) := by
  cases ev with
  | stdin line now publishOk =>
    cases send : parseSend line with
    | none =>
      obtain ⟨texts, same⟩ := handleCommand_of_other p n now publishOk send
      rw [handle, same]
      exact quiet_of_refused (by simp only [payment, send]) (quiet_prints texts)
    | some parsed =>
      rw [handle, handleCommand_of_send send]
      exact sendTransfer_outcome p n now publishOk send
  | gossip data => exact handleGossip_outcome p n data
  | transferRequest peer request => exact handleTransferRequest_outcome p n peer request
  | transferResponse peer response =>
    simp only [handle, handleTransferResponse]
    split
    · exact quiet_of_unadmitted (by simp) rfl (quiet_prints [_])
    · exact quiet_of_unadmitted (by simp) rfl (quiet_prints [_])
  | connectionEstablished peer => exact .quiet (by simp) rfl (by simp)
  | connectionClosed peer => exact .quiet (by simp) rfl (by simp)

end Node
end SecureExchange
