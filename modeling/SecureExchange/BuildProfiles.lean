import SecureExchange.Accounting
import SecureExchange.Commutation
import SecureExchange.Library.Checked
import SecureExchange.Overflow

namespace SecureExchange
open Reactive

namespace Ledger

/-- No addition of a call leaves the `u64` range. -/
def SumsFit (l : Ledger) (operation : Operation) : Prop := l.BalancesFit operation ∧ l.NonceFits operation

theorem serve_profiles {l : Ledger} {operation : Operation} (fits : l.SumsFit operation) :
    serve .dev l operation = serve .release l operation := by
  obtain ⟨balances, nonces⟩ := fits
  cases operation with
  | register a balance => rfl
  | credit a amount =>
    have room : l.funds a + amount.toNat < 2 ^ 64 := balances
    simp only [serve, perform, credit, addToEntry_eq]
    rw [if_neg (by omega), if_neg (by simp)]
  | transfer fromAddr toAddr amount nonce =>
    cases result : l.verdict fromAddr toAddr amount nonce with
    | error e => simp only [serve, perform, transfer_of_error result]
    | ok =>
      have accepts : l.Accepts fromAddr toAddr amount nonce := (verdict_ok_iff ..).mp result
      have nonceRoom := nonces accepts
      have room := (balances accepts).2
      simp only [serve, perform, transfer_of_accepts accepts]
      rw [if_neg (by omega), if_neg (by omega), if_neg (by simp), if_neg (by simp)]

/-- A checked call that returns has computed no sum out of range. -/
theorem fits_of_live {l : Ledger} {operation : Operation} (live : (serve .dev l operation).halted = false) :
    l.SumsFit operation := by
  unfold serve at live
  generalize reaction : l.perform .dev operation = r at live
  have outcome := perform_spec .dev l operation
  rw [reaction] at outcome
  cases outcome with
  | opened | known => exact ⟨trivial, trivial⟩
  | credited fits => exact ⟨fits rfl, trivial⟩
  | refused refused =>
    exact ⟨fun accepts => absurd accepts refused, fun accepts => absurd accepts refused⟩
  | moved accepts nonceFits sumFits =>
    exact ⟨fun _ => ⟨accepts.1.2.2, sumFits rfl⟩, fun _ => nonceFits rfl⟩
  | creditPanic | noncePanic | movePanic => cases live

/-- Checked sums against wrapping sums. -/
theorem checks_serve : Checks (serve .dev) (serve .release) SumsFit where
  agrees _ _ fits := serve_profiles fits
  stops _ _ unfit := Bool.not_eq_false _ ▸ fun live => unfit (fits_of_live live)
  live l operation := by rw [serve_release]

/-- A build with overflow checks gets through the same calls with the same
results and accounts as a build without them, or panics, and it panics just
when a sum of the other one wraps. -/
theorem buildProfiles_agree (l : Ledger) (operations : List Operation) :
    ((run (serve .dev) l operations).halted = false ↔
        ∀ st ∈ steps (serve .release) l operations, st.before.SumsFit st.input) ∧
      ((run (serve .dev) l operations).halted = false →
        run (serve .dev) l operations = run (serve .release) l operations) :=
  ⟨checks_serve.live_iff, fun live => checks_serve.run_eq (checks_serve.live_iff.mp live)⟩

end Ledger

namespace Node
variable {C : Primitives} {Peer : Type}

theorem transfer_of_fits {n : Node C Peer} (toAddr : Address) (amount : UInt64)
    (fits : n.ledger.Covers n.wallet.address toAddr amount →
      n.ownNonce.toNat + 1 < 2 ^ 64 ∧ n.ledger.funds toAddr + amount.toNat < 2 ^ 64) :
    n.ledger.transfer .dev n.wallet.address toAddr amount n.ownNonce =
      n.ledger.transfer .release n.wallet.address toAddr amount n.ownNonce := by
  cases result : n.ledger.verdict n.wallet.address toAddr amount n.ownNonce with
  | error e => rw [Ledger.transfer_of_error result, Ledger.transfer_of_error result]
  | ok =>
    have accepts : n.ledger.Accepts n.wallet.address toAddr amount n.ownNonce := (Ledger.verdict_ok_iff ..).mp result
    obtain ⟨nonceRoom, room⟩ := fits accepts.1
    rw [ownNonce] at nonceRoom
    rw [Ledger.transfer_of_accepts accepts, Ledger.transfer_of_accepts accepts]
    rw [if_neg (by omega), if_neg (by omega), if_neg (by simp), if_neg (by simp)]

theorem credit_of_fits {n : Node C Peer} {tx : SignedTransaction} (here : tx.toAddr = n.wallet.address)
    (fits : n.CreditFits tx) :
    n.ledger.credit .dev tx.toAddr tx.amount = n.ledger.credit .release tx.toAddr tx.amount := by
  have room : n.ledger.funds tx.toAddr + tx.amount.toNat < 2 ^ 64 := by
    rw [here]
    exact fits
  rw [Ledger.credit, Ledger.credit, Ledger.addToEntry_eq, Ledger.addToEntry_eq]
  rw [if_neg (by omega), if_neg (by simp)]

/-- Only the ledger calls of a `send` line depend on the build. -/
theorem handleCommand_congr {p q : Profile} {n : Node C Peer} {line : String} {now : UInt64} {publishOk : Bool}
    (same : ∀ toAddr amount, parseSend line = some (toAddr, amount) →
      n.sendTransfer p toAddr amount now publishOk = n.sendTransfer q toAddr amount now publishOk) :
    n.handleCommand p line now publishOk = n.handleCommand q line now publishOk := by
  cases send : parseSend line with
  | some parsed => rw [handleCommand_of_send send, handleCommand_of_send send, same _ _ send]
  | none =>
    unfold parseSend at send
    unfold handleCommand
    cases parts : splitWhitespace (trim line.toList) with
    | nil => rfl
    | cons word arguments =>
      rw [parts] at send
      simp only
      split
      · rename_i sends
        split
        · rename_i address amount
          simp only [if_pos sends] at send
          cases parsed : addressFromHex address with
          | error e => rfl
          | ok toAddr =>
            cases value : parseU64 amount with
            | none => rfl
            | some amount => simp [parsed, value] at send
        · rfl
      · rfl

theorem sendTransfer_of_fits {n : Node C Peer} {line : String} {now : UInt64} {publishOk : Bool} {toAddr : Address}
    {amount : UInt64} (send : parseSend line = some (toAddr, amount))
    (fits : ∀ tx, n.payment line now = some tx → n.PaymentFits tx) :
    n.sendTransfer .dev toAddr amount now publishOk = n.sendTransfer .release toAddr amount now publishOk := by
  have atNonce : (n.ledger.nonce n.wallet.address).getD 0 = n.ownNonce := rfl
  unfold sendTransfer
  simp only [atNonce]
  cases verified : (SignedTransaction.create n.wallet toAddr amount n.ownNonce now).verify C with
  | error e => rfl
  | ok =>
    have same := transfer_of_fits (n := n) toAddr amount fun covers =>
      fits _ ((payment_of_send n now send).trans (if_pos ⟨verified, covers⟩))
    simp only [same]

/-- Checked sums against wrapping sums. -/
theorem checks_handle [DecidableEq Peer] :
    Checks (handle .dev : Machine (Node C Peer) (Event Peer) (Effect Peer)) (handle .release) AdditionsFit where
  agrees n ev fits := by
    cases ev with
    | stdin line now publishOk =>
      exact handleCommand_congr fun toAddr amount send => sendTransfer_of_fits send fits.1
    | gossip data =>
      have room := fits.2
      simp only [handle, handleGossip]
      cases decoded : SignedTransaction.fromRlpBytes data with
      | error e => rfl
      | ok tx =>
        simp only
        split
        · rfl
        rename_i fresh
        cases verified : tx.verify C with
        | error e => rfl
        | ok =>
          simp only
          split
          · rename_i here
            have admits : n.admitted (.gossip data : Event Peer) = some tx := by
              simp only [admitted, decoded]
              exact if_pos ⟨fresh, verified, here⟩
            rw [credit_of_fits here (room tx admits)]
          · rfl
    | transferRequest peer request =>
      have room := fits.2
      simp only [handle, handleTransferRequest]
      cases decoded : SignedTransaction.fromRlpBytes request.txRlp with
      | error e => rfl
      | ok tx =>
        simp only
        cases verified : tx.verify C with
        | error e => rfl
        | ok =>
          simp only
          split
          · rfl
          · rename_i here
            rw [not_not] at here
            have admits : n.admitted (.transferRequest peer request) = some tx := by
              simp only [admitted, decoded]
              exact if_pos ⟨verified, here⟩
            rw [credit_of_fits here (room tx admits)]
    | transferResponse | connectionEstablished | connectionClosed => rfl
  stops n ev unfit := by
    by_contra running
    have live : (n.handle .dev ev).halted = false := Bool.not_eq_true _ ▸ running
    refine unfit ⟨fun tx pays => ?_, fun tx admits => ?_⟩
    · rcases handle_of_paymentOf .dev pays with ⟨_, _, _, _, reaction⟩ | ⟨fits, _⟩
      · rw [reaction] at live
        cases live
      · exact fits rfl
    · rcases handle_of_admitted .dev admits with ⟨_, _, reaction⟩ | ⟨fits, _⟩
      · rw [reaction] at live
        cases live
      · exact fits rfl
  live n ev := by
    generalize reaction : n.handle .release ev = r
    have outcome := n.handle_outcome .release ev
    rw [reaction] at outcome
    cases outcome with
    | paid | credited | witnessed | quiet => rfl
    | payPanic _ checked | creditPanic _ checked => cases checked

end Node

namespace Network
variable {C : Primitives} {ι : Type} [DecidableEq ι] [Fintype ι]

/-- A network of builds with overflow checks behaves as one of builds
without them as long as no node panics, and nodes keep up just when no sum
of the other network wraps, whatever arrives in whichever order. -/
theorem profiles_agree (net : Network C ι) (actions : List (Action ι)) :
    ((run (react .dev) net actions).state.down = net.down ↔
        ∀ st ∈ steps (react .release) net actions, Fits st.before st.input) ∧
      ((run (react .dev) net actions).state.down = net.down →
        run (react .dev) net actions = run (react .release) net actions) :=
  ⟨Node.checks_handle.down_iff, fun down => Node.checks_handle.system_eq (Node.checks_handle.down_iff.mp down)⟩

end Network
end SecureExchange
