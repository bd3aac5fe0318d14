import Mathlib.Algebra.Order.BigOperators.Group.List
import SecureExchange.CreditHistory
import SecureExchange.Sample

namespace SecureExchange
open Reactive

section Effects
variable {Peer : Type}

/-- The transaction bytes that an effect hands to the network layer. -/
def Effect.handed : Effect Peer → Option (List UInt8)
  | .sendRequest _ request => some request.txRlp
  | .publish _ data _ => some data
  | _ => none

/-- The bytes go to at least one peer: a request is sent, or the publish
succeeds. -/
def Effect.Reaches (data : List UInt8) : Effect Peer → Prop
  | .sendRequest peers request => peers.Nonempty ∧ request.txRlp = data
  | .publish _ published ok => ok = true ∧ published = data
  | _ => False

instance (e : Effect Peer) (data : List UInt8) : Decidable (e.Reaches data) :=
  match e with
  | .sendRequest peers request => inferInstanceAs (Decidable (peers.Nonempty ∧ request.txRlp = data))
  | .publish _ published ok => inferInstanceAs (Decidable (ok = true ∧ published = data))
  | .transferred _ | .credited _ | .sendResponse _ _ | .println _ => isFalse id

theorem Effect.handed_of_reaches {e : Effect Peer} {data : List UInt8} (reaches : e.Reaches data) :
    e.handed = some data := by
  cases e with
  | sendRequest peers request => rw [← reaches.2]; rfl
  | publish topic published ok => rw [← reaches.2]; rfl
  | transferred | credited | sendResponse | println => exact reaches.elim

theorem Effect.handed_of_quiet {e : Effect Peer} (quiet : e.Quiet) : e.handed = none := by
  cases e with
  | sendRequest | publish => exact quiet.elim
  | transferred | credited | sendResponse | println => rfl

/-- The transactions sent among some effects that went to at least one peer. -/
def handedOut (effects : List (Effect Peer)) : List SignedTransaction :=
  (transfersIn effects).filter fun tx => ∃ e ∈ effects, e.Reaches tx.toRlpBytes

/-- Dropping only positive amounts from a total shows. -/
theorem totalAmount_filter_eq_iff {txs : List SignedTransaction} {P : SignedTransaction → Bool}
    (positive : ∀ tx ∈ txs, tx.amount ≠ 0) :
    totalAmount (txs.filter P) = totalAmount txs ↔ ∀ tx ∈ txs, P tx = true := by
  induction txs with
  | nil => simp
  | cons tx rest ih =>
    have tail := ih fun other member => positive other (List.mem_cons_of_mem _ member)
    have small : totalAmount (rest.filter P) ≤ totalAmount rest :=
      ((List.filter_sublist (p := P) (l := rest)).map _).sum_le_sum fun _ _ => Nat.zero_le _
    have amount : 0 < tx.amount.toNat := by
      refine Nat.pos_of_ne_zero fun zero => positive tx (List.mem_cons_self ..) ?_
      exact UInt64.toNat_inj.mp zero
    rw [List.forall_mem_cons]
    cases keeps : P tx with
    | true =>
      simp only [List.filter_cons, keeps, if_true, totalAmount_cons, true_and]
      rw [← tail]
      omega
    | false =>
      simp only [List.filter_cons, keeps, Bool.false_eq_true, if_false, totalAmount_cons, false_and,
        iff_false]
      omega

theorem handedOut_total_iff {effects : List (Effect Peer)}
    (positive : ∀ tx ∈ transfersIn effects, tx.amount ≠ 0) :
    totalAmount (handedOut effects) = totalAmount (transfersIn effects) ↔
      ∀ tx ∈ transfersIn effects, ∃ e ∈ effects, e.Reaches tx.toRlpBytes := by
  rw [handedOut, totalAmount_filter_eq_iff positive]
  simp only [decide_eq_true_eq]

/-- The payments of one address in the order sent: to other addresses, of
positive amounts, with the nonces counting up from zero. -/
def Numbered (a : Address) (txs : List SignedTransaction) : Prop :=
  ∀ k tx, txs[k]? = some tx →
    tx.fromAddr = a ∧ tx.toAddr ≠ a ∧ tx.amount ≠ 0 ∧ tx.nonce = UInt64.ofNat k

theorem Numbered.concat {a : Address} {txs : List SignedTransaction} {tx : SignedTransaction}
    (numbered : Numbered a txs) (payer : tx.fromAddr = a) (other : tx.toAddr ≠ a)
    (positive : tx.amount ≠ 0) (next : tx.nonce = UInt64.ofNat txs.length) : Numbered a (txs ++ [tx]) := by
  intro k found atIndex
  rcases Nat.lt_trichotomy k txs.length with earlier | here | later
  · rw [List.getElem?_append_left earlier] at atIndex
    exact numbered k found atIndex
  · rw [List.getElem?_append_right (by omega), here, Nat.sub_self] at atIndex
    cases atIndex
    rw [here]
    exact ⟨payer, other, positive, next⟩
  · rw [List.getElem?_eq_none (by rw [List.length_append, List.length_singleton]; omega)] at atIndex
    cases atIndex

theorem toNat_ofNat_nonce {k : Nat} (small : k < 2 ^ 64) : (UInt64.ofNat k).toNat = k :=
  UInt64.toNat_ofNat_of_lt' small

/-- Below 2^64 payments, no two carry the same nonce. -/
theorem Numbered.nodup_nonces {a : Address} {txs : List SignedTransaction} (numbered : Numbered a txs)
    (few : txs.length ≤ 2 ^ 64) : (txs.map fun tx => tx.nonce).Nodup := by
  refine List.pairwise_iff_getElem.mpr fun i j first second order same => ?_
  rw [List.length_map] at first second
  rw [List.getElem_map, List.getElem_map] at same
  obtain ⟨_, _, _, nonceI⟩ := numbered i txs[i] (List.getElem?_eq_getElem first)
  obtain ⟨_, _, _, nonceJ⟩ := numbered j txs[j] (List.getElem?_eq_getElem second)
  have equal := congrArg UInt64.toNat (nonceI.symm.trans (same.trans nonceJ))
  rw [toNat_ofNat_nonce (by omega), toNat_ofNat_nonce (by omega)] at equal
  omega

theorem mem_transfersIn {effects : List (Effect Peer)} {tx : SignedTransaction} :
    tx ∈ transfersIn effects ↔ .transferred tx ∈ effects := by
  unfold transfersIn
  rw [List.mem_filterMap]
  constructor
  · rintro ⟨e, member, value⟩
    cases e with
    | transferred other => cases value; exact member
    | credited | sendRequest | publish | sendResponse | println => cases value
  · intro member
    exact ⟨_, member, rfl⟩

/-- A well-formed `send` line. -/
def Event.isSend : Event Peer → Bool
  | .stdin line _ _ => (parseSend line).isSome
  | _ => false

end Effects

namespace Node
variable {C : Primitives} {Peer : Type}

theorem ownFunds_start (wallet : Wallet C) (balance : UInt64) :
    (start wallet balance : Node C Peer).ownFunds = balance.toNat :=
  Ledger.funds_of_account (Ledger.account_register _ wallet.address balance rfl)

theorem ownNonce_start (wallet : Wallet C) (balance : UInt64) :
    (start wallet balance : Node C Peer).ownNonce = 0 :=
  Ledger.nextNonce_of_account (Ledger.account_register _ wallet.address balance rfl)

theorem isSend_of_paymentOf {n : Node C Peer} {ev : Event Peer} {tx : SignedTransaction}
    (pays : n.paymentOf ev = some tx) : ev.isSend = true := by
  cases ev with
  | stdin line now publishOk =>
    cases send : parseSend line with
    | none => simp only [paymentOf, payment, send] at pays; cases pays
    | some parsed => simp only [Event.isSend, send, Option.isSome_some]
  | gossip | transferRequest | transferResponse | connectionEstablished | connectionClosed => cases pays

/-- A `send` line that parses badly or that the ledger turns down. -/
def RefusesSend (n : Node C Peer) (line : String) : Prop :=
  ∃ word address amount, splitWhitespace (trim line.toList) = [word, address, amount] ∧
    (String.ofList word = "send" ∨ String.ofList word = "transfer") ∧
    ((∃ e, addressFromHex address = .error e) ∨ parseU64 amount = none ∨
      ∃ toAddr value, addressFromHex address = .ok toAddr ∧ parseU64 amount = some value ∧
        (toAddr = n.wallet.address ∨ value = 0 ∨ n.ownFunds < value.toNat))

theorem payment_of_refuses {n : Node C Peer} {line : String} (refuses : n.RefusesSend line) (now : UInt64) :
    n.payment line now = none := by
  obtain ⟨word, address, amount, parts, sends, why⟩ := refuses
  rcases why with ⟨e, bad⟩ | bad | ⟨toAddr, value, parsed, number, turned⟩
  · simp only [payment, parseSend, parts, if_pos sends, bad]
  · cases parsed : addressFromHex address with
    | error e => simp only [payment, parseSend, parts, if_pos sends, parsed]
    | ok toAddr => simp only [payment, parseSend, parts, if_pos sends, parsed, bad]
  · have send : parseSend line = some (toAddr, value) := by
      simp only [parseSend, parts, if_pos sends, parsed, number]
    rw [payment_of_send n now send]
    refine if_neg fun both => ?_
    obtain ⟨different, nonzero, covered⟩ := both.2
    rcases turned with self | zero | poor
    · exact different self.symm
    · exact nonzero zero
    · exact absurd covered (Nat.not_le.mpr poor)

/-- No addition that the event causes overflows. -/
def AdditionsFit (n : Node C Peer) (ev : Event Peer) : Prop :=
  (∀ tx ∈ n.paymentOf ev, n.PaymentFits tx) ∧ ∀ tx ∈ n.admitted ev, n.CreditFits tx

instance (n : Node C Peer) (ev : Event Peer) : Decidable (n.AdditionsFit ev) :=
  inferInstanceAs (Decidable (_ ∧ _))

/-- A payment is only made while somebody can be told about it. -/
def SendsReach (n : Node C Peer) (ev : Event Peer) : Prop :=
  ∀ line now publishOk tx, ev = .stdin line now publishOk → n.payment line now = some tx →
    n.connectedPeers.Nonempty ∨ publishOk = true

variable [DecidableEq Peer]

/-- Whatever an event hands to the network is the payment it made. -/
theorem handed_handle {p : Profile} {n : Node C Peer} {ev : Event Peer} {e : Effect Peer}
    {data : List UInt8} (member : e ∈ (n.handle p ev).output) (hands : e.handed = some data) :
    ∃ tx ∈ transfersIn (n.handle p ev).output, data = tx.toRlpBytes := by
  have notQuiet : ¬ e.Quiet := fun quiet => by rw [Effect.handed_of_quiet quiet] at hands; cases hands
  cases pays : n.paymentOf ev with
  | some tx =>
    rcases handle_of_paymentOf p pays with ⟨_, _, ledger, _, reaction⟩ |
      ⟨_, line, now, publishOk, report, _, quiet, reaction⟩
    · rw [reaction] at member
      cases member
    · have live : (n.handle p ev).halted = false := by rw [reaction]
      have sent := transfersIn_handle live
      refine ⟨tx, by rw [sent, pays]; exact List.mem_singleton.mpr rfl, ?_⟩
      rw [reaction] at member
      rcases List.mem_cons.mp member with rfl | member
      · cases hands
      rcases List.mem_cons.mp member with rfl | member
      · cases hands; rfl
      rcases List.mem_cons.mp member with rfl | member
      · cases hands; rfl
      · exact absurd (quiet e member) notQuiet
  | none =>
    cases admits : n.admitted ev with
    | some tx =>
      rcases handle_of_admitted p admits with ⟨_, _, reaction⟩ | ⟨_, report, quiet, reaction⟩
      · rw [reaction, List.mem_singleton] at member
        subst member
        cases hands
      · rw [reaction] at member
        rcases List.mem_cons.mp member with rfl | member
        · cases hands
        · exact absurd (quiet e member) notQuiet
    | none =>
      obtain ⟨_, _, quiet⟩ := handle_of_idle p pays admits
      exact absurd (quiet e member) notQuiet

/-- A payment that goes through reaches a peer when there is one to ask, or
when GossipSub takes it. -/
theorem reaches_handle_iff {p : Profile} {n : Node C Peer} {line : String} {now : UInt64}
    {publishOk : Bool} {tx : SignedTransaction} (pays : n.payment line now = some tx)
    (live : (n.handle p (.stdin line now publishOk)).halted = false) :
    (∃ e ∈ (n.handle p (.stdin line now publishOk)).output, e.Reaches tx.toRlpBytes) ↔
      n.connectedPeers.Nonempty ∨ publishOk = true := by
  have own : n.paymentOf (.stdin line now publishOk) = some tx := pays
  rcases handle_of_paymentOf p own with ⟨_, _, ledger, _, reaction⟩ |
    ⟨_, _, _, _, report, same, quiet, reaction⟩
  · rw [reaction] at live
    cases live
  cases same
  rw [reaction]
  constructor
  · rintro ⟨e, member, reaches⟩
    rcases List.mem_cons.mp member with rfl | member
    · exact reaches.elim
    rcases List.mem_cons.mp member with rfl | member
    · exact Or.inl reaches.1
    rcases List.mem_cons.mp member with rfl | member
    · exact Or.inr reaches.1
    · have hands := Effect.handed_of_reaches reaches
      rw [Effect.handed_of_quiet (quiet e member)] at hands
      cases hands
  · rintro (peers | ok)
    · exact ⟨_, List.mem_cons_of_mem _ (List.mem_cons_self ..), peers, rfl⟩
    · exact ⟨_, List.mem_cons_of_mem _ (List.mem_cons_of_mem _ (List.mem_cons_self ..)), ok, rfl⟩

/-- A command that makes no payment leaves ledger and cache alone. -/
theorem handle_of_refused (p : Profile) {n : Node C Peer} {line : String} (now : UInt64)
    (publishOk : Bool) (unpaid : n.payment line now = none) :
    transfersIn (n.handle p (.stdin line now publishOk)).output = [] ∧
      (∀ e ∈ (n.handle p (.stdin line now publishOk)).output, e.handed = none) ∧
      (n.handle p (.stdin line now publishOk)).state.ledger = n.ledger ∧
      (n.handle p (.stdin line now publishOk)).state.txCache = n.txCache := by
  generalize reaction : n.handle p (.stdin line now publishOk) = r
  have outcome := n.handle_outcome p (.stdin line now publishOk)
  rw [reaction] at outcome
  cases outcome with
  | paid pays | payPanic pays => rw [pays] at unpaid; cases unpaid
  | credited admits | creditPanic admits => cases admits
  | quiet _ _ quiet =>
    exact ⟨transfersIn_of_quiet quiet, fun e member => Effect.handed_of_quiet (quiet e member), rfl, rfl⟩

/-- The own nonce counts the payments. -/
theorem ownNonce_handle {p : Profile} {n : Node C Peer} {ev : Event Peer}
    (live : (n.handle p ev).halted = false) :
    (n.handle p ev).state.ownNonce =
      n.ownNonce + UInt64.ofNat (transfersIn (n.handle p ev).output).length := by
  rw [transfersIn_handle live]
  cases pays : n.paymentOf ev with
  | some tx =>
    rcases handle_of_paymentOf p pays with ⟨_, _, ledger, _, reaction⟩ |
      ⟨_, line, now, publishOk, report, rfl, _, reaction⟩
    · rw [reaction] at live
      cases live
    · rw [reaction]
      exact ownNonce_paid (payment_spec pays).2.2.2
  | none =>
    have stays : n.ownNonce + UInt64.ofNat (none : Option SignedTransaction).toList.length = n.ownNonce :=
      UInt64.add_zero n.ownNonce
    rw [stays]
    cases admits : n.admitted ev with
    | some tx =>
      rcases handle_of_admitted p admits with ⟨_, _, reaction⟩ | ⟨_, report, _, reaction⟩
      · rw [reaction]
      · rw [reaction]
        exact n.ownNonce_received tx
    | none =>
      obtain ⟨_, ledger, _⟩ := handle_of_idle p pays admits
      rw [ownNonce, ownNonce, ledger, wallet_handle]

/-- Additions that fit let the handler finish. -/
theorem AdditionsFit.live {p : Profile} {n : Node C Peer} {ev : Event Peer} (fits : n.AdditionsFit ev) :
    (n.handle p ev).halted = false := by
  cases pays : n.paymentOf ev with
  | some tx =>
    rcases handle_of_paymentOf p pays with ⟨_, full, _⟩ | ⟨_, _, _, _, _, _, _, reaction⟩
    · exact absurd (fits.1 tx pays) full
    · rw [reaction]
  | none =>
    cases admits : n.admitted ev with
    | some tx =>
      rcases handle_of_admitted p admits with ⟨_, full, _⟩ | ⟨_, _, _, reaction⟩
      · exact absurd (fits.2 tx admits) full
      · rw [reaction]
    | none => exact (handle_of_idle p pays admits).1

/-- Additions that fit make the books of one event balance exactly. -/
theorem AdditionsFit.accounts {p : Profile} {n : Node C Peer} {ev : Event Peer} (fits : n.AdditionsFit ev) :
    (n.handle p ev).state.ownFunds + totalAmount (transfersIn (n.handle p ev).output) =
        n.ownFunds + totalAmount (creditsIn (n.handle p ev).output) ∧
      (n.handle p ev).state.ownNonce.toNat =
        n.ownNonce.toNat + (transfersIn (n.handle p ev).output).length := by
  have live := fits.live (p := p)
  have nonce := ownNonce_handle live
  rw [nonce, transfersIn_handle live, creditsIn_handle]
  cases pays : n.paymentOf ev with
  | some tx =>
    obtain ⟨next, _⟩ := fits.1 tx pays
    rcases handle_of_paymentOf p pays with ⟨_, full, _⟩ | ⟨_, line, now, publishOk, _, rfl, _, reaction⟩
    · exact absurd (fits.1 tx pays) full
    · have funds := ownFunds_paid (payment_spec pays).2.2.2
      rw [reaction]
      refine ⟨by simpa [admitted] using funds, toNat_add_of_fits ?_⟩
      exact next
  | none =>
    refine ⟨?_, by simp⟩
    cases admits : n.admitted ev with
    | some tx =>
      have fit := fits.2 tx admits
      rcases handle_of_admitted p admits with ⟨_, full, _⟩ | ⟨_, _, _, reaction⟩
      · exact absurd fit full
      · rw [reaction, ownFunds_received, Nat.mod_eq_of_lt fit]
        simp
    | none =>
      obtain ⟨_, ledger, _⟩ := handle_of_idle p pays admits
      simp only [ownFunds, ledger, wallet_handle]

/-- Additions that fit leave every other entry at what was paid to it: what
its owner pays is never taken out again. -/
theorem AdditionsFit.entries {p : Profile} {n : Node C Peer} {ev : Event Peer} {a : Address}
    (fits : n.AdditionsFit ev) (other : a ≠ n.wallet.address) :
    (n.handle p ev).state.ledger.funds a =
      n.ledger.funds a + totalAmount ((transfersIn (n.handle p ev).output).filter fun tx => tx.toAddr = a) := by
  have live := fits.live (p := p)
  rw [transfersIn_handle live]
  cases pays : n.paymentOf ev with
  | some tx =>
    obtain ⟨_, room⟩ := fits.1 tx pays
    rcases handle_of_paymentOf p pays with ⟨_, full, _⟩ | ⟨_, line, now, publishOk, _, rfl, _, reaction⟩
    · exact absurd (fits.1 tx pays) full
    · have kept := Ledger.account_debited_ne n.ledger other tx.amount
      rw [reaction]
      by_cases here : tx.toAddr = a
      · subst here
        rw [← Ledger.funds_congr kept] at room ⊢
        simpa [paid] using Ledger.funds_plus_of_fits room
      · have plus := Ledger.account_plus_ne (n.ledger.debited n.wallet.address tx.amount)
          (Ne.symm here) tx.amount
        simpa [here, paid] using (Ledger.funds_congr plus).trans (Ledger.funds_congr kept)
  | none =>
    have nothing : totalAmount ((none : Option SignedTransaction).toList.filter fun tx => tx.toAddr = a) = 0 := rfl
    rw [nothing, Nat.add_zero]
    cases admits : n.admitted ev with
    | some tx =>
      rcases handle_of_admitted p admits with ⟨_, full, _⟩ | ⟨_, _, _, reaction⟩
      · exact absurd (fits.2 tx admits) full
      · rw [reaction]
        exact Ledger.funds_congr (Ledger.account_plus_ne n.ledger other tx.amount)
    | none =>
      obtain ⟨_, ledger, _⟩ := handle_of_idle p pays admits
      rw [ledger]

theorem transfersIn_run (p : Profile) (n : Node C Peer) (events : List (Event Peer)) :
    transfersIn (run (handle p) n events).output =
      (steps (handle p) n events).flatMap fun st => transfersIn st.reaction.output := by
  rw [run_output, transfersIn, List.filterMap_flatMap]
  rfl

theorem mem_transfersIn_run {p : Profile} {n : Node C Peer} {events : List (Event Peer)}
    {tx : SignedTransaction} :
    tx ∈ transfersIn (run (handle p) n events).output ↔
      ∃ st ∈ steps (handle p) n events, tx ∈ transfersIn st.reaction.output := by
  rw [transfersIn_run, List.mem_flatMap]

theorem length_transfersIn_handle (p : Profile) (n : Node C Peer) (ev : Event Peer) :
    (transfersIn (n.handle p ev).output).length ≤ [ev].countP Event.isSend := by
  cases sent : transfersIn (n.handle p ev).output with
  | nil => exact Nat.zero_le _
  | cons tx rest =>
    have pays := paymentOf_of_transferred (sent ▸ List.mem_cons_self .. : tx ∈ transfersIn (n.handle p ev).output)
    rw [List.countP_singleton, if_pos (isSend_of_paymentOf pays), ← sent]
    cases live : (n.handle p ev).halted with
    | true => rw [transfersIn_handle_halted live]; exact Nat.zero_le _
    | false => rw [transfersIn_handle live, pays]; exact le_rfl

theorem length_transfersIn_run (p : Profile) (n : Node C Peer) (events : List (Event Peer)) :
    (transfersIn (run (handle p) n events).output).length ≤ events.countP Event.isSend := by
  induction events generalizing n with
  | nil => exact le_rfl
  | cons ev rest ih =>
    have here := n.length_transfersIn_handle p ev
    rw [← List.singleton_append, List.countP_append]
    cases live : (n.handle p ev).halted with
    | true =>
      rw [List.singleton_append, run_cons_halted live]
      omega
    | false =>
      have later := ih (n.handle p ev).state
      rw [List.singleton_append, run_cons_live live, transfersIn_append, List.length_append]
      omega

/-- Whatever a run hands to the network is one of the payments it made. -/
theorem handed_run {p : Profile} {n : Node C Peer} {events : List (Event Peer)} {e : Effect Peer}
    {data : List UInt8} (member : e ∈ (run (handle p) n events).output) (hands : e.handed = some data) :
    ∃ tx ∈ transfersIn (run (handle p) n events).output, data = tx.toRlpBytes := by
  rw [run_output] at member
  obtain ⟨st, among, inside⟩ := List.mem_flatMap.mp member
  have answer := reaction_of_mem_steps among
  rw [answer] at inside
  obtain ⟨tx, sent, same⟩ := handed_handle inside hands
  exact ⟨tx, mem_transfersIn_run.mpr ⟨st, among, by rw [answer]; exact sent⟩, same⟩

section Start
variable {p : Profile} {wallet : Wallet C} {balance : UInt64} {events : List (Event Peer)}

/-- The payments of a run from the start are numbered. -/
theorem numbered_run :
    Numbered wallet.address (transfersIn (run (handle p) (start wallet balance) events).output) := by
  let I : Node C Peer → List (Effect Peer) → Prop := fun n past =>
    n.wallet = wallet ∧ n.ownNonce = UInt64.ofNat (transfersIn past).length ∧
      Numbered wallet.address (transfersIn past)
  have keep : ∀ n past ev, I n past → True → (handle p n ev).halted = false →
      I (handle p n ev).state (past ++ (handle p n ev).output) := by
    rintro n past ev ⟨own, nonce, numbered⟩ - live
    refine ⟨(wallet_handle p n ev).trans own, ?_, ?_⟩
    · rw [ownNonce_handle live, nonce, transfersIn_append, List.length_append, UInt64.ofNat_add]
    · rw [transfersIn_append, transfersIn_handle live]
      cases pays : n.paymentOf ev with
      | none => simpa using numbered
      | some tx =>
        cases ev with
        | stdin line now publishOk =>
          obtain ⟨_, payer, next, different, positive, _⟩ := payment_spec pays
          rw [own] at payer different
          exact numbered.concat payer different.symm positive (next.trans nonce)
        | gossip | transferRequest | transferResponse | connectionEstablished | connectionClosed =>
          cases pays
  have stop : ∀ n past ev, I n past → True → (handle p n ev).halted = true →
      Numbered wallet.address (transfersIn (past ++ (handle p n ev).output)) := by
    rintro n past ev ⟨_, _, numbered⟩ - halted
    rw [transfersIn_append, transfersIn_handle_halted halted, List.append_nil]
    exact numbered
  have begin : I (start wallet balance) [] :=
    ⟨rfl, ownNonce_start wallet balance, fun k tx atIndex => by simp [transfersIn] at atIndex⟩
  exact run_rule (P := fun r => Numbered wallet.address (transfersIn r.output)) keep stop
    (fun n past holds => holds.2.2) begin fun _ _ => trivial

/-- What a run has left and sent is covered by what it began with and received. -/
theorem spent_run :
    (run (handle p) (start wallet balance) events).state.ownFunds +
        totalAmount (transfersIn (run (handle p) (start wallet balance) events).output) ≤
      balance.toNat + totalAmount (creditsIn (run (handle p) (start wallet balance) events).output) := by
  let I : Node C Peer → List (Effect Peer) → Prop := fun n past =>
    n.ownFunds + totalAmount (transfersIn past) ≤ balance.toNat + totalAmount (creditsIn past)
  have keep : ∀ n past ev, I n past → True →
      I (handle p n ev).state (past ++ (handle p n ev).output) := by
    intro n past ev (holds : n.ownFunds + _ ≤ _) _
    have step := n.ownFunds_handle_le p ev
    simp only [I, transfersIn_append, creditsIn_append, totalAmount_append]
    omega
  have begin : I (start wallet balance) [] := (ownFunds_start wallet balance).le
  exact run_always (I := I) keep begin fun _ _ => trivial

/-- The discipline of the sending side in one run: the k-th payment is
numbered k, all that is handed to the network is a payment, the payments are
covered, and a refused command leaves no trace. -/
structure EmissionDiscipline (p : Profile) (wallet : Wallet C) (balance : UInt64)
    (events : List (Event Peer)) : Prop where
  numbered : ∀ (k : Nat) (tx : SignedTransaction),
    (transfersIn (run (handle p) (start wallet balance) events).output)[k]? = some tx →
      tx.fromAddr = wallet.address ∧ tx.toAddr ≠ wallet.address ∧ 0 < tx.amount ∧ tx.nonce.toNat = k
  distinct : ((transfersIn (run (handle p) (start wallet balance) events).output).map
    fun tx => tx.nonce).Nodup
  recorded : ∀ e ∈ (run (handle p) (start wallet balance) events).output, ∀ data,
    e.handed = some data →
      ∃ tx ∈ transfersIn (run (handle p) (start wallet balance) events).output, data = tx.toRlpBytes
  covered : totalAmount (transfersIn (run (handle p) (start wallet balance) events).output) ≤
    balance.toNat + totalAmount (creditsIn (run (handle p) (start wallet balance) events).output)
  refused : ∀ st ∈ steps (handle p) (start wallet balance) events, ∀ line now publishOk,
    st.input = .stdin line now publishOk → st.before.RefusesSend line →
      transfersIn st.reaction.output = [] ∧ (∀ e ∈ st.reaction.output, e.handed = none) ∧
        st.reaction.state.ledger = st.before.ledger ∧ st.reaction.state.txCache = st.before.txCache

/-- Every run with fewer than 2^64 sends keeps the discipline. -/
theorem emission_discipline (few : events.countP Event.isSend < 2 ^ 64) :
    EmissionDiscipline p wallet balance events := by
  have inOrder : Numbered wallet.address
      (transfersIn (run (handle p) (start wallet balance) events).output) := numbered_run
  have short := length_transfersIn_run p (start wallet balance) events
  constructor
  case numbered =>
    intro k tx atIndex
    obtain ⟨payer, other, positive, nonce⟩ := inOrder k tx atIndex
    have small := (List.getElem?_eq_some_iff.mp atIndex).1
    refine ⟨payer, other, UInt64.pos_iff_ne_zero.mpr positive, ?_⟩
    rw [nonce, toNat_ofNat_nonce (by omega)]
  case distinct => exact inOrder.nodup_nonces (by omega)
  case recorded => exact fun e member data hands => handed_run member hands
  case covered => exact (Nat.le_add_left _ _).trans spent_run
  case refused =>
    intro st member line now publishOk command refuses
    rw [reaction_of_mem_steps member, command]
    exact handle_of_refused p now publishOk (payment_of_refuses refuses now)

/-- A send, a refused one and an incoming payment, in turn. -/
def sampleSends : List (Event Nat) :=
  [.connectionEstablished 7, .stdin sampleLine 0 true,
    .stdin "send 0x0101010101010101010101010101010101010101 500" 1 true,
    .gossip (samplePayment 40 1).toRlpBytes]

theorem emission_discipline_sampleSends : EmissionDiscipline .dev (sampleWallet 2) 100 sampleSends :=
  emission_discipline (by decide +kernel)

/-- A later run of the node could still hand the transaction to a peer. -/
def Keeps (p : Profile) (n : Node C Peer) (tx : SignedTransaction) : Prop :=
  ∃ later, ∃ e ∈ (run (handle p) n later).output, e.Reaches tx.toRlpBytes

/-- With every addition fitting, a run accounts for all it sent. -/
theorem accounts_run (fits : ∀ st ∈ steps (handle p) (start wallet balance) events,
      st.before.AdditionsFit st.input) :
    (run (handle p) (start wallet balance) events).state.ownFunds +
        totalAmount (transfersIn (run (handle p) (start wallet balance) events).output) =
      balance.toNat + totalAmount (creditsIn (run (handle p) (start wallet balance) events).output) ∧
    (run (handle p) (start wallet balance) events).state.ownNonce.toNat =
      (transfersIn (run (handle p) (start wallet balance) events).output).length := by
  let I : Node C Peer → List (Effect Peer) → Prop := fun n past =>
    n.ownFunds + totalAmount (transfersIn past) = balance.toNat + totalAmount (creditsIn past) ∧
      n.ownNonce.toNat = (transfersIn past).length
  have keep : ∀ n past ev, I n past → n.AdditionsFit ev →
      I (handle p n ev).state (past ++ (handle p n ev).output) := by
    rintro n past ev ⟨funds, nonce⟩ here
    obtain ⟨stepFunds, stepNonce⟩ := here.accounts (p := p)
    simp only [I, transfersIn_append, creditsIn_append, totalAmount_append, List.length_append]
    omega
  have begin : I (start wallet balance) [] := by
    refine ⟨ownFunds_start wallet balance, ?_⟩
    rw [ownNonce_start]
    rfl
  exact run_always (I := I) keep begin fits

/-- With every addition fitting, the entry of another address holds all
that was ever paid to it. -/
theorem entries_run (fits : ∀ st ∈ steps (handle p) (start wallet balance) events,
      st.before.AdditionsFit st.input) {a : Address} (other : a ≠ wallet.address) :
    (run (handle p) (start wallet balance) events).state.ledger.funds a =
      totalAmount ((transfersIn (run (handle p) (start wallet balance) events).output).filter
        fun tx => tx.toAddr = a) := by
  let I : Node C Peer → List (Effect Peer) → Prop := fun n past => n.wallet = wallet ∧
    n.ledger.funds a = totalAmount ((transfersIn past).filter fun tx => tx.toAddr = a)
  have keep : ∀ n past ev, I n past → n.AdditionsFit ev →
      I (handle p n ev).state (past ++ (handle p n ev).output) := by
    rintro n past ev ⟨own, funds⟩ here
    refine ⟨(wallet_handle p n ev).trans own, ?_⟩
    have step := here.entries (p := p) (a := a) (by rw [own]; exact other)
    rw [transfersIn_append, List.filter_append, totalAmount_append, step, funds]
  have begin : I (start wallet balance) [] :=
    ⟨rfl, Ledger.funds_of_missing (Ledger.account_register_ne wallet.address balance other)⟩
  exact (run_always (I := I) keep begin fits).2

/-- What no step of a run hands out in time is not handed out at all. -/
theorem reaches_own_step (fits : ∀ st ∈ steps (handle p) (start wallet balance) events,
      st.before.AdditionsFit st.input) {st : Step (Node C Peer) (Event Peer) (Effect Peer)}
    (member : st ∈ steps (handle p) (start wallet balance) events) {tx : SignedTransaction}
    (pays : st.before.paymentOf st.input = some tx)
    (reached : ∃ e ∈ (run (handle p) (start wallet balance) events).output, e.Reaches tx.toRlpBytes) :
    ∃ e ∈ st.reaction.output, e.Reaches tx.toRlpBytes := by
  obtain ⟨before, after, split, live, found, _, answer⟩ := step_history member
  have running : (handle p st.before st.input).halted = false := (fits st member).live
  have short := (accounts_run fits).2
  have few := (run (handle p) (start wallet balance) events).state.ownNonce.toNat_lt
  have once : (transfersIn (run (handle p) (start wallet balance) events).output).Nodup :=
    (numbered_run.nodup_nonces (by omega)).of_map
  obtain ⟨e, inside, reaches⟩ := reached
  have hands := Effect.handed_of_reaches reaches
  rw [split, run_append live, ← found, run_cons_live running] at once inside
  simp only [transfersIn_append, transfersIn_handle running, pays, Option.toList_some,
    List.nodup_append, List.mem_append] at once
  obtain ⟨_, ⟨_, _, notLater⟩, notEarlier⟩ := once
  simp only [List.mem_append] at inside
  rw [answer]
  rcases inside with earlier | here | later
  · obtain ⟨other, sent, same⟩ := handed_run earlier hands
    rw [← SignedTransaction.toRlpBytes_inj same] at sent
    exact absurd rfl (notEarlier tx sent tx (Or.inl (List.mem_singleton.mpr rfl)))
  · exact ⟨e, here, reaches⟩
  · obtain ⟨other, sent, same⟩ := handed_run later hands
    rw [← SignedTransaction.toRlpBytes_inj same] at sent
    exact absurd rfl (notLater tx (List.mem_singleton.mpr rfl) tx sent)

/-- A step that makes a payment hands it to a peer exactly when it is made
while somebody can be told about it. -/
theorem reaches_step_iff {n : Node C Peer} (fits : ∀ st ∈ steps (handle p) n events, st.before.AdditionsFit st.input)
    {st : Step (Node C Peer) (Event Peer) (Effect Peer)} (member : st ∈ steps (handle p) n events)
    {line : String} {now : UInt64} {publishOk : Bool} {tx : SignedTransaction}
    (command : st.input = .stdin line now publishOk) (pays : st.before.payment line now = some tx) :
    (∃ e ∈ st.reaction.output, e.Reaches tx.toRlpBytes) ↔
      st.before.connectedPeers.Nonempty ∨ publishOk = true := by
  have running := (fits st member).live (p := p)
  rw [command] at running
  rw [reaction_of_mem_steps member, command]
  exact reaches_handle_iff pays running

/-- When every payment is made while somebody can be told about it, all of
them are handed to a peer. -/
theorem reached_of_sendsReach {n : Node C Peer}
    (fits : ∀ st ∈ steps (handle p) n events, st.before.AdditionsFit st.input)
    (reach : ∀ st ∈ steps (handle p) n events, st.before.SendsReach st.input) {tx : SignedTransaction}
    (sent : tx ∈ transfersIn (run (handle p) n events).output) :
    ∃ e ∈ (run (handle p) n events).output, e.Reaches tx.toRlpBytes := by
  obtain ⟨st, member, inside⟩ := mem_transfersIn_run.mp sent
  rw [reaction_of_mem_steps member] at inside
  obtain ⟨line, now, publishOk, command, pays⟩ := stdin_of_paymentOf (paymentOf_of_transferred inside)
  obtain ⟨e, here, reaches⟩ := (reaches_step_iff fits member command pays).mpr
    (reach st member line now publishOk tx command pays)
  refine ⟨e, ?_, reaches⟩
  rw [run_output]
  exact List.mem_flatMap.mpr ⟨st, member, here⟩

/-- The own balance is what was there and arrived less what was handed to a
peer, and a send that reaches nobody changes nothing or is kept for later,
exactly when every payment is made while somebody can be told about it. -/
theorem funds_leave_with_handedOut_iff
    (fits : ∀ st ∈ steps (handle p) (start wallet balance) events, st.before.AdditionsFit st.input) :
    ((run (handle p) (start wallet balance) events).state.ownFunds +
          totalAmount (handedOut (run (handle p) (start wallet balance) events).output) =
        balance.toNat + totalAmount (creditsIn (run (handle p) (start wallet balance) events).output) ∧
      ∀ st ∈ steps (handle p) (start wallet balance) events, ∀ line now publishOk,
        st.input = .stdin line now publishOk → (∀ e ∈ st.reaction.output, ∀ data, ¬ e.Reaches data) →
          st.reaction.state.ledger = st.before.ledger ∨
            ∃ tx, st.before.payment line now = some tx ∧ st.reaction.state.Keeps p tx) ↔
      ∀ st ∈ steps (handle p) (start wallet balance) events, st.before.SendsReach st.input := by
  have accounts := (accounts_run fits).1
  have positive : ∀ tx ∈ transfersIn (run (handle p) (start wallet balance) events).output,
      tx.amount ≠ 0 := by
    intro tx member
    obtain ⟨k, atIndex⟩ := List.mem_iff_getElem?.mp member
    exact (numbered_run k tx atIndex).2.2.1
  have whole := handedOut_total_iff positive
  constructor
  · rintro ⟨equal, _⟩ st member line now publishOk tx command pays
    have all := whole.mp (by omega)
    have own : st.before.paymentOf st.input = some tx := by rw [command]; exact pays
    have sent : tx ∈ transfersIn (run (handle p) (start wallet balance) events).output := by
      refine mem_transfersIn_run.mpr ⟨st, member, ?_⟩
      rw [reaction_of_mem_steps member, transfersIn_handle (fits st member).live, own]
      exact List.mem_singleton.mpr rfl
    have reached := reaches_own_step fits member own (all tx sent)
    exact (reaches_step_iff fits member command pays).mp reached
  · intro reach
    have all := whole.mpr fun tx sent => reached_of_sendsReach fits reach sent
    refine ⟨by rw [all]; exact accounts, ?_⟩
    intro st member line now publishOk command silent
    cases pays : st.before.payment line now with
    | none =>
      left
      rw [reaction_of_mem_steps member, command]
      exact (handle_of_refused p now publishOk pays).2.2.1
    | some tx =>
      have told := reach st member line now publishOk tx command pays
      obtain ⟨e, here, reaches⟩ := (reaches_step_iff fits member command pays).mpr told
      exact absurd reaches (silent e here _)

/-- A send while nobody is connected, and the retry that the message asks for. -/
def sampleRetry : List (Event Nat) :=
  [.stdin sampleLine 0 false, .connectionEstablished 7,
    .stdin sampleLine 1 true]

theorem funds_leave_with_handedOut_iff_sampleRetry :
    ((run (handle .dev) (start (sampleWallet 2) 100) sampleRetry).state.ownFunds +
          totalAmount (handedOut (run (handle .dev) (start (sampleWallet 2) 100) sampleRetry).output) =
        UInt64.toNat 100 +
          totalAmount (creditsIn (run (handle .dev) (start (sampleWallet 2) 100) sampleRetry).output) ∧
      ∀ st ∈ steps (handle .dev) (start (sampleWallet 2) 100) sampleRetry, ∀ line now publishOk,
        st.input = .stdin line now publishOk → (∀ e ∈ st.reaction.output, ∀ data, ¬ e.Reaches data) →
          st.reaction.state.ledger = st.before.ledger ∨
            ∃ tx, st.before.payment line now = some tx ∧ st.reaction.state.Keeps .dev tx) ↔
      ∀ st ∈ steps (handle .dev) (start (sampleWallet 2) 100) sampleRetry,
        st.before.SendsReach st.input :=
  funds_leave_with_handedOut_iff (by decide +kernel)

/-- The payment that nobody was told about is gone, and paid again. -/
theorem sampleRetry_pays_twice :
    (∀ st ∈ steps (handle .dev) (start (sampleWallet 2) 100) sampleRetry,
        st.before.AdditionsFit st.input) ∧
      ¬ ((run (handle .dev) (start (sampleWallet 2) 100) sampleRetry).state.ownFunds +
          totalAmount (handedOut (run (handle .dev) (start (sampleWallet 2) 100) sampleRetry).output) =
        UInt64.toNat 100 +
          totalAmount (creditsIn (run (handle .dev) (start (sampleWallet 2) 100) sampleRetry).output)) := by
  decide +kernel

end Start
end Node
end SecureExchange
