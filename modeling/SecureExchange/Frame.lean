import SecureExchange.Incoming

namespace SecureExchange
open Reactive

namespace Ledger

/-- What crediting one account leaves alone: all nonces, and all of the
other accounts. -/
structure Frame (own : Address) (l l' : Ledger) : Prop where
  nonces : ∀ a, l'.nonce a = l.nonce a
  others : ∀ a, a ≠ own → l'.account a = l.account a

variable {own : Address} {l m l' : Ledger}

theorem Frame.refl (own : Address) (l : Ledger) : Frame own l l := ⟨fun _ => rfl, fun _ _ => rfl⟩

theorem Frame.trans (left : Frame own l m) (right : Frame own m l') : Frame own l l' :=
  ⟨fun a => (right.nonces a).trans (left.nonces a),
    fun a different => (right.others a different).trans (left.others a different)⟩

theorem Frame.known (frame : Frame own l l') (known : (l.account own).isSome) : (l'.account own).isSome := by
  have same := congrArg Option.isSome (frame.nonces own)
  rw [nonce, nonce, Option.isSome_map, Option.isSome_map] at same
  rwa [same]

theorem Frame.plus (known : (l.account own).isSome) (amount : UInt64) : Frame own l (l.plus own amount) := by
  constructor
  case nonces =>
    intro a
    by_cases same : a = own
    · subst same
      obtain ⟨state, found⟩ := Option.isSome_iff_exists.mp known
      simp only [nonce, Ledger.plus, account_set_self, entryPlus, found, Option.map_some]
    · rw [nonce, nonce, account_plus_ne l same]
  case others => exact fun a different => account_plus_ne l different amount

end Ledger

namespace Node
variable {C : Primitives} {Peer : Type}

/-- What peers can make the event loop read. -/
def FromNetwork : Event Peer → Prop
  | .gossip _ | .transferRequest .. => True
  | _ => False

/-- A payload that does not decode, does not verify or, on the direct
channel, is for somebody else. -/
def Rejected (n : Node C Peer) : Event Peer → Prop
  | .gossip data =>
    match SignedTransaction.fromRlpBytes data with
    | .error _ => True
    | .ok tx => ¬ tx.Verified C
  | .transferRequest _ request =>
    match SignedTransaction.fromRlpBytes request.txRlp with
    | .error _ => True
    | .ok tx => ¬ tx.Verified C ∨ tx.toAddr ≠ n.wallet.address
  | _ => False

variable [DecidableEq Peer] {p : Profile} {n : Node C Peer}

/-- One payload moves the own balance at most. -/
theorem frame_handle {ev : Event Peer} (network : FromNetwork ev)
    (known : (n.ledger.account n.wallet.address).isSome) :
    Ledger.Frame n.wallet.address n.ledger (n.handle p ev).state.ledger := by
  have outcome := handle_outcome p n ev
  generalize n.handle p ev = r at outcome
  cases outcome with
  | paid | payPanic => exact absurd network id
  | credited => exact .plus known _
  | creditPanic | witnessed | quiet => exact .refl _ _

theorem verify_error {tx : SignedTransaction} (failed : ¬ tx.Verified C) : ∃ e, tx.verify C = .error e := by
  cases result : tx.verify C with
  | error e => exact ⟨e, rfl⟩
  | ok => exact absurd result failed

theorem handle_rejected_gossip {data : List UInt8} (rejected : n.Rejected (.gossip data)) :
    n.handle p (.gossip data) = .stay n := by
  simp only [Rejected] at rejected
  rw [handle, handleGossip]
  cases decoded : SignedTransaction.fromRlpBytes data with
  | error e => rfl
  | ok tx =>
    rw [decoded] at rejected
    obtain ⟨e, failed⟩ := verify_error rejected
    simp only [failed, ite_self]

/-- A direct request that is rejected changes nothing and is refused. -/
theorem handle_rejected_request {peer : Peer} {request : TransferRequest}
    (rejected : n.Rejected (.transferRequest peer request)) :
    ∃ response : TransferResponse, response.accepted = false ∧
      n.handle p (.transferRequest peer request) = ⟨n, [.sendResponse peer response], false⟩ := by
  simp only [Rejected] at rejected
  rw [handle, handleTransferRequest]
  cases decoded : SignedTransaction.fromRlpBytes request.txRlp with
  | error e => exact ⟨_, rfl, rfl⟩
  | ok tx =>
    rw [decoded] at rejected
    simp only
    cases verified : tx.verify C with
    | error e => exact ⟨_, rfl, rfl⟩
    | ok =>
      have elsewhere : tx.toAddr ≠ n.wallet.address := by
        rcases rejected with failed | other
        · exact absurd verified failed
        · exact other
      simp only [if_pos elsewhere]
      exact ⟨_, rfl, rfl⟩

/-- What a run of payloads from the network does to a node. -/
structure NetworkFrame (p : Profile) (n : Node C Peer) (events : List (Event Peer)) : Prop where
  ledger : Ledger.Frame n.wallet.address n.ledger (run (handle p) n events).state.ledger
  rejected : ∀ st ∈ steps (handle p) n events, st.before.Rejected st.input →
    st.reaction.state.ledger = st.before.ledger ∧ st.reaction.state.txCache = st.before.txCache ∧
      ∀ peer request, st.input = .transferRequest peer request →
        ∃ response : TransferResponse, response.accepted = false ∧
          st.reaction.output = [.sendResponse peer response]

/-- Nothing that arrives from the network touches a nonce or another
account, and what is rejected leaves no trace. -/
theorem networkFrame_run (p : Profile) (n : Node C Peer) (known : (n.ledger.account n.wallet.address).isSome)
    (events : List (Event Peer)) (network : ∀ ev ∈ events, FromNetwork ev) : NetworkFrame p n events := by
  constructor
  case ledger =>
    let I : Node C Peer → List (Effect Peer) → Prop := fun m _ =>
      m.wallet = n.wallet ∧ Ledger.Frame n.wallet.address n.ledger m.ledger
    have keep : ∀ m past ev, I m past → FromNetwork ev → I (m.handle p ev).state (past ++ (m.handle p ev).output) := by
      rintro m past ev ⟨wallet, frame⟩ fromNetwork
      have there := frame.known known
      rw [← wallet] at there frame
      refine ⟨(wallet_handle ..).trans wallet, ?_⟩
      rw [← wallet]
      exact frame.trans (frame_handle fromNetwork there)
    exact (run_always (I := I) keep ⟨rfl, .refl _ _⟩ fun st member =>
      network st.input (input_mem_of_mem_steps member)).2
  case rejected =>
    intro st member rejects
    rw [reaction_of_mem_steps member]
    cases payload : st.input with
    | gossip data =>
      rw [payload] at rejects
      rw [handle_rejected_gossip rejects]
      exact ⟨rfl, rfl, fun _ _ same => by cases same⟩
    | transferRequest peer request =>
      rw [payload] at rejects
      obtain ⟨response, refused, answer⟩ := handle_rejected_request (p := p) rejects
      rw [answer]
      refine ⟨rfl, rfl, fun _ _ same => ?_⟩
      cases same
      exact ⟨response, refused, rfl⟩
    | stdin | transferResponse | connectionEstablished | connectionClosed =>
      rw [payload] at rejects
      exact absurd rejects id

/-- A payment to the node by gossip, junk on the direct channel, and the
payment once more with its amount raised. -/
def payloads : List (Event (Fin 2)) :=
  [.gossip (samplePayment 30 0).toRlpBytes, .transferRequest payer ⟨[0x00]⟩,
    .gossip ({ samplePayment 30 0 with amount := 31 } : SignedTransaction).toRlpBytes]

theorem networkFrame_payloads :
    NetworkFrame .dev (start (sampleWallet 1) 100) payloads ∧
      (run (handle .dev) (start (sampleWallet 1) 100) payloads).state.ownFunds = 130 :=
  ⟨networkFrame_run .dev _ rfl payloads (by simp [payloads, FromNetwork]), by decide +kernel⟩

end Node
end SecureExchange
