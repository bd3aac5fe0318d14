import SecureExchange.GossipConvergence

namespace SecureExchange
open Reactive

/-- The amounts of some transactions added up as the ledger adds them. -/
def wrappedTotal (txs : List SignedTransaction) : UInt64 := .ofNat (totalAmount txs)

theorem wrappedTotal_concat (txs : List SignedTransaction) (tx : SignedTransaction) :
    wrappedTotal (txs ++ [tx]) = wrappedTotal txs + tx.amount := by
  simp [wrappedTotal]

def paymentsTo (a : Address) (txs : List SignedTransaction) : List SignedTransaction :=
  txs.filter fun tx => tx.toAddr = a

theorem paymentsTo_concat_self (txs : List SignedTransaction) (tx : SignedTransaction) :
    paymentsTo tx.toAddr (txs ++ [tx]) = paymentsTo tx.toAddr txs ++ [tx] := by
  simp [paymentsTo]

theorem paymentsTo_concat_ne {a : Address} {tx : SignedTransaction} (other : a ≠ tx.toAddr)
    (txs : List SignedTransaction) : paymentsTo a (txs ++ [tx]) = paymentsTo a txs := by
  simp [paymentsTo, Ne.symm other]

/-- The entry of an address in the books of a wallet that opened with a
balance and has since been credited and made payments. Only the wallet's
own entry has a nonce that counts. -/
def entryAfter (wallet : Address) (opening : UInt64) (credits payments : List SignedTransaction)
    (a : Address) : Option AccountState :=
  if a = wallet then
    some ⟨opening + wrappedTotal credits - wrappedTotal payments, .ofNat payments.length⟩
  else if paymentsTo a payments = [] then none
  else some (.new (wrappedTotal (paymentsTo a payments)))

section Entries
variable {wallet a : Address} {opening : UInt64} {credits payments : List SignedTransaction} {tx : SignedTransaction}

theorem entryAfter_start (wallet a : Address) (opening : UInt64) :
    entryAfter wallet opening [] [] a = if a = wallet then some (.new opening) else none := by
  unfold entryAfter
  split
  · simp [wrappedTotal, AccountState.new]
  · rfl

theorem entryAfter_credit_self : entryAfter wallet opening (credits ++ [tx]) payments wallet =
    some ⟨opening + wrappedTotal credits - wrappedTotal payments + tx.amount, .ofNat payments.length⟩ := by
  rw [entryAfter, if_pos rfl, wrappedTotal_concat]
  congr 2
  grind

theorem entryAfter_credit_ne (other : a ≠ wallet) : entryAfter wallet opening (credits ++ [tx]) payments a =
    entryAfter wallet opening credits payments a := by
  rw [entryAfter, entryAfter, if_neg other, if_neg other]

theorem entryAfter_pay_self : entryAfter wallet opening credits (payments ++ [tx]) wallet =
    some ⟨opening + wrappedTotal credits - wrappedTotal payments - tx.amount, .ofNat payments.length + 1⟩ := by
  rw [entryAfter, if_pos rfl, wrappedTotal_concat, List.length_append, UInt64.ofNat_add]
  congr 2
  grind

theorem entryAfter_pay_new (away : tx.toAddr ≠ wallet)
    (absent : entryAfter wallet opening credits payments tx.toAddr = none) :
    entryAfter wallet opening credits (payments ++ [tx]) tx.toAddr = some (.new tx.amount) := by
  rw [entryAfter, if_neg away] at absent ⊢
  rw [paymentsTo_concat_self, if_neg (by simp), wrappedTotal_concat]
  by_cases first : paymentsTo tx.toAddr payments = []
  · rw [first]
    simp [wrappedTotal]
  · rw [if_neg first] at absent
    cases absent

theorem entryAfter_pay_known {s : AccountState} (away : tx.toAddr ≠ wallet)
    (present : entryAfter wallet opening credits payments tx.toAddr = some s) :
    entryAfter wallet opening credits (payments ++ [tx]) tx.toAddr =
      some { s with balance := s.balance + tx.amount } := by
  rw [entryAfter, if_neg away] at present ⊢
  rw [paymentsTo_concat_self, if_neg (by simp), wrappedTotal_concat]
  by_cases first : paymentsTo tx.toAddr payments = []
  · rw [if_pos first] at present
    cases present
  · rw [if_neg first] at present
    cases present
    rfl

theorem entryAfter_pay_other (away : a ≠ wallet) (other : a ≠ tx.toAddr) :
    entryAfter wallet opening credits (payments ++ [tx]) a = entryAfter wallet opening credits payments a := by
  rw [entryAfter, entryAfter, if_neg away, if_neg away, paymentsTo_concat_ne other]

end Entries

namespace Node
variable {C : Primitives} {Peer : Type}

/-- The ledger of a node is told by its opening balance, its credits and
its payments. -/
def Books (opening : UInt64) (n : Node C Peer) (past : List (Effect Peer)) : Prop :=
  ∀ a, n.ledger.account a = entryAfter n.wallet.address opening (creditsIn past) (transfersIn past) a

theorem books_start (wallet : Wallet C) (balance : UInt64) :
    (start wallet balance : Node C Peer).Books balance [] := by
  intro a
  have opens : (start wallet balance : Node C Peer).ledger = Ledger.new.set wallet.address (.new balance) := rfl
  show (start wallet balance : Node C Peer).ledger.account a = entryAfter wallet.address balance [] [] a
  rw [entryAfter_start, opens]
  split
  · rename_i same
    rw [same, Ledger.account_set_self]
  · rename_i other
    rw [Ledger.account_set_ne _ other]
    rfl

section Steps
variable {opening : UInt64} {n : Node C Peer} {past report : List (Effect Peer)} {tx : SignedTransaction}

theorem Books.received (books : n.Books opening past) : (n.received tx).Books opening (past ++ [.credited tx]) := by
  intro a
  have credits : creditsIn (past ++ [Effect.credited tx]) = creditsIn past ++ [tx] := creditsIn_append ..
  have payments : transfersIn (past ++ [Effect.credited tx]) = transfersIn past := by simp [transfersIn]
  rw [credits, payments]
  have own := books n.wallet.address
  rw [entryAfter, if_pos rfl] at own
  show (n.ledger.plus n.wallet.address tx.amount).account a = entryAfter n.wallet.address ..
  by_cases same : a = n.wallet.address
  · subst same
    rw [entryAfter_credit_self, Ledger.plus, Ledger.account_set_self, Ledger.entryPlus, own]
  · rw [entryAfter_credit_ne same, Ledger.account_plus_ne _ same]
    exact books a

theorem Books.paid (books : n.Books opening past) (covers : n.ledger.Covers n.wallet.address tx.toAddr tx.amount) :
    (n.paid tx).Books opening (past ++ [.transferred tx]) := by
  intro a
  have credits : creditsIn (past ++ [Effect.transferred tx]) = creditsIn past := by simp [creditsIn]
  have payments : transfersIn (past ++ [Effect.transferred tx]) = transfersIn past ++ [tx] := transfersIn_append ..
  rw [credits, payments]
  have away : tx.toAddr ≠ n.wallet.address := covers.1.symm
  have own := books n.wallet.address
  rw [entryAfter, if_pos rfl] at own
  show ((n.ledger.debited n.wallet.address tx.amount).plus tx.toAddr tx.amount).account a =
    entryAfter n.wallet.address ..
  by_cases same : a = n.wallet.address
  · subst same
    rw [entryAfter_pay_self, Ledger.account_plus_ne _ covers.1]
    simp only [Ledger.debited, own, Ledger.account_set_self]
  by_cases payee : a = tx.toAddr
  · subst payee
    cases found : n.ledger.account tx.toAddr with
    | none =>
      have absent := (books tx.toAddr).symm.trans found
      simp only [entryAfter_pay_new away absent, Ledger.plus, Ledger.account_set_self, Ledger.entryPlus,
        Ledger.account_debited_ne _ away, found]
    | some s =>
      have present := (books tx.toAddr).symm.trans found
      simp only [entryAfter_pay_known away present, Ledger.plus, Ledger.account_set_self, Ledger.entryPlus,
        Ledger.account_debited_ne _ away, found]
  · rw [entryAfter_pay_other same payee, Ledger.account_plus_ne _ payee, Ledger.account_debited_ne _ same]
    exact books a

/-- Effects that neither credit nor pay leave the books as they are. -/
theorem Books.idle {m : Node C Peer} (books : n.Books opening past) (wallet : m.wallet = n.wallet)
    (ledger : m.ledger = n.ledger) (uncredited : creditsIn report = []) (unpaid : transfersIn report = []) :
    m.Books opening (past ++ report) := by
  intro a
  rw [creditsIn_append, transfersIn_append, uncredited, unpaid, List.append_nil, List.append_nil, wallet, ledger]
  exact books a

end Steps

variable [DecidableEq Peer]

theorem books_handle {p : Profile} {opening : UInt64} {n : Node C Peer} {past : List (Effect Peer)} {ev : Event Peer}
    (books : n.Books opening past) (live : (n.handle p ev).halted = false) :
    (n.handle p ev).state.Books opening (past ++ (n.handle p ev).output) := by
  generalize reaction : n.handle p ev = r at live
  have outcome := n.handle_outcome p ev
  rw [reaction] at outcome
  cases outcome with
  | @paid line now publishOk tx report pays fits quiet =>
    have covers := (payment_spec pays).2.2.2
    have rest : ∀ e ∈ report, e.Quiet := quiet
    rw [← List.singleton_append, ← List.append_assoc]
    refine (books.paid covers).idle rfl rfl ?_ ?_
    · simpa [creditsIn] using creditsIn_of_quiet rest
    · simpa [transfersIn] using transfersIn_of_quiet rest
  | @credited ev tx report admits fits quiet =>
    rw [← List.singleton_append, ← List.append_assoc]
    exact books.received.idle rfl rfl (creditsIn_of_quiet quiet) (transfersIn_of_quiet quiet)
  | payPanic | creditPanic => cases live
  | witnessed => exact books.idle rfl rfl rfl rfl
  | quiet _ _ quiet => exact books.idle rfl rfl (creditsIn_of_quiet quiet) (transfersIn_of_quiet quiet)

theorem books_run {p : Profile} {wallet : Wallet C} {balance : UInt64} {events : List (Event Peer)}
    (live : (run (handle p) (start wallet balance) events).halted = false) :
    (run (handle p) (start wallet balance) events).state.Books balance
      (run (handle p) (start wallet balance) events).output :=
  run_invariant (G := fun _ _ => True) (fun _ _ _ books _ running => books_handle books running)
    (books_start wallet balance) (fun _ _ => trivial) live

/-- The verified transaction whose hash an event leaves in the cache: one
that is paid, heard on gossip, or accepted on request. -/
def noted (n : Node C Peer) : Event Peer → Option SignedTransaction
  | .gossip data => heard C data
  | ev => (n.paymentOf ev).or (n.admitted ev)

/-- What an event other than gossip brings into the cache. -/
theorem cache_of_direct {p : Profile} {n : Node C Peer} {ev : Event Peer} (direct : ∀ data, ev ≠ .gossip data)
    (live : (n.handle p ev).halted = false) :
    (n.handle p ev).state.txCache =
      match (n.paymentOf ev).or (n.admitted ev) with
      | some tx => insert (tx.hash C) n.txCache
      | none => n.txCache := by
  generalize reaction : n.handle p ev = r at live
  have outcome := n.handle_outcome p ev
  rw [reaction] at outcome
  cases outcome with
  | @paid line now publishOk tx report pays =>
    simp only [paymentOf, pays, Option.some_or]
    rfl
  | @credited ev tx report admits =>
    simp only [paymentOf_of_admitted admits, Option.none_or, admits]
    rfl
  | payPanic | creditPanic => cases live
  | @witnessed data => exact absurd rfl (direct data)
  | quiet unpaid unadmitted =>
    simp only [paymentOf_eq_none unpaid, Option.none_or, unadmitted]

theorem cache_handle_iff {p : Profile} {n : Node C Peer} {ev : Event Peer} (live : (n.handle p ev).halted = false)
    (h : String) : h ∈ (n.handle p ev).state.txCache ↔
      h ∈ n.txCache ∨ ∃ tx, n.noted ev = some tx ∧ tx.hash C = h := by
  by_cases gossip : ∃ data, ev = .gossip data
  · obtain ⟨data, rfl⟩ := gossip
    rw [noted]
    cases hears : heard C data with
    | none => simp [handle_of_unheard hears, Reaction.stay]
    | some tx =>
      rw [state_of_heard hears live, cache_absorb, Finset.mem_insert, or_comm]
      simp [eq_comm]
  · have direct : ∀ data, ev ≠ .gossip data := fun data same => gossip ⟨data, same⟩
    have notes : n.noted ev = (n.paymentOf ev).or (n.admitted ev) := by
      unfold noted
      split
      · exact absurd rfl (direct _)
      · rfl
    rw [cache_of_direct direct live, notes]
    cases (n.paymentOf ev).or (n.admitted ev) with
    | none => simp
    | some tx =>
      rw [Finset.mem_insert, or_comm]
      simp [eq_comm]

/-- Whether an event is about connections to a peer. -/
def About (peer : Peer) (ev : Event Peer) : Prop :=
  ev = .connectionEstablished peer ∨ ev = .connectionClosed peer

instance (peer : Peer) (ev : Event Peer) : Decidable (About peer ev) := inferInstanceAs (Decidable (_ ∨ _))

/-- The last event about connections to a peer is that one was established. -/
def LastConnected (peer : Peer) (events : List (Event Peer)) : Prop :=
  (events.filter (About peer)).getLast? = some (.connectionEstablished peer)

theorem lastConnected_concat (peer : Peer) (events : List (Event Peer)) (ev : Event Peer) :
    LastConnected peer (events ++ [ev]) ↔
      if About peer ev then ev = .connectionEstablished peer else LastConnected peer events := by
  unfold LastConnected
  by_cases about : About peer ev
  · rw [if_pos about, List.filter_append, List.filter_singleton]
    simp [about]
  · rw [if_neg about, List.filter_append, List.filter_singleton]
    simp [about]

omit [DecidableEq Peer] in
theorem peers_sendTransfer (p : Profile) (n : Node C Peer) (toAddr : Address) (amount now : UInt64)
    (publishOk : Bool) : (n.sendTransfer p toAddr amount now publishOk).state.connectedPeers = n.connectedPeers := by
  unfold sendTransfer
  dsimp only
  split
  · rfl
  · split <;> rfl

omit [DecidableEq Peer] in
theorem peers_handleCommand (p : Profile) (n : Node C Peer) (line : String) (now : UInt64) (publishOk : Bool) :
    (n.handleCommand p line now publishOk).state.connectedPeers = n.connectedPeers := by
  cases send : parseSend line with
  | none =>
    obtain ⟨texts, same⟩ := handleCommand_of_other p n now publishOk send
    rw [same]
  | some parsed =>
    rw [handleCommand_of_send send]
    exact peers_sendTransfer ..

omit [DecidableEq Peer] in
theorem peers_handleGossip (p : Profile) (n : Node C Peer) (data : List UInt8) :
    (n.handleGossip p data).state.connectedPeers = n.connectedPeers := by
  unfold handleGossip
  split
  · rfl
  dsimp only
  split
  · rfl
  split
  · rfl
  split
  · split <;> rfl
  · rfl

omit [DecidableEq Peer] in
theorem peers_handleTransferRequest (p : Profile) (n : Node C Peer) (peer : Peer) (request : TransferRequest) :
    (n.handleTransferRequest p peer request).state.connectedPeers = n.connectedPeers := by
  unfold handleTransferRequest
  split
  · rfl
  dsimp only
  split
  · rfl
  split
  · rfl
  · split <;> rfl

theorem peers_handle_iff (p : Profile) (n : Node C Peer) (ev : Event Peer) (peer : Peer) :
    peer ∈ (n.handle p ev).state.connectedPeers ↔
      if About peer ev then ev = .connectionEstablished peer else peer ∈ n.connectedPeers := by
  cases ev with
  | stdin line now publishOk => simp [About, handle, peers_handleCommand]
  | gossip data => simp [About, handle, peers_handleGossip]
  | transferRequest asker request => simp [About, handle, peers_handleTransferRequest]
  | transferResponse asker response =>
    simp only [About, handle, handleTransferResponse]
    split <;> simp [say]
  | connectionEstablished other =>
    by_cases same : other = peer
    · simp [About, handle, Reaction.stay, same]
    · simp [About, handle, Reaction.stay, same, Ne.symm same]
  | connectionClosed other =>
    by_cases same : other = peer
    · simp [About, handle, Reaction.stay, same]
    · simp [About, handle, Reaction.stay, same, Ne.symm same]

section Runs
variable {p : Profile} {wallet : Wallet C} {balance : UInt64} {events : List (Event Peer)}

theorem cache_run_iff (live : (run (handle p) (start wallet balance) events).halted = false) (h : String) :
    h ∈ (run (handle p) (start wallet balance) events).state.txCache ↔
      ∃ st ∈ steps (handle p) (start wallet balance) events, ∃ tx,
        st.before.noted st.input = some tx ∧ tx.hash C = h := by
  refine live_run_induction (P := fun events => h ∈ (run (handle p) (start wallet balance) events).state.txCache ↔
    ∃ st ∈ steps (handle p) (start wallet balance) events, ∃ tx,
      st.before.noted st.input = some tx ∧ tx.hash C = h) ?_ ?_ live
  · simp [start, Reaction.stay]
  · intro before ev earlier here ih
    rw [run_concat earlier, steps_concat earlier, cache_handle_iff here, ih]
    simp only [List.mem_append, List.mem_singleton, or_and_right, exists_or, exists_eq_left]

theorem peers_run_iff (live : (run (handle p) (start wallet balance) events).halted = false) (peer : Peer) :
    peer ∈ (run (handle p) (start wallet balance) events).state.connectedPeers ↔ LastConnected peer events := by
  refine live_run_induction (P := fun events =>
    peer ∈ (run (handle p) (start wallet balance) events).state.connectedPeers ↔ LastConnected peer events) ?_ ?_ live
  · simp [start, Reaction.stay, LastConnected]
  · intro before ev earlier here ih
    rw [run_concat earlier, peers_handle_iff, lastConnected_concat, ih]

/-- While a node is up, its whole state is told by its history, in both
builds: the accounts by the credits and payments it has made, the cache by
its payments, the verified gossip it has heard and the verified requests it
has accepted, and the connected peers by the last connection event about each
of them. -/
theorem state_of_history (live : (run (handle p) (start wallet balance) events).halted = false) :
    (∀ a, (run (handle p) (start wallet balance) events).state.ledger.account a =
        entryAfter wallet.address balance (creditsIn (run (handle p) (start wallet balance) events).output)
          (transfersIn (run (handle p) (start wallet balance) events).output) a) ∧
      (∀ h, h ∈ (run (handle p) (start wallet balance) events).state.txCache ↔
        ∃ st ∈ steps (handle p) (start wallet balance) events, ∃ tx,
          st.before.noted st.input = some tx ∧ tx.hash C = h) ∧
      ∀ peer, peer ∈ (run (handle p) (start wallet balance) events).state.connectedPeers ↔
        LastConnected peer events := by
  refine ⟨fun a => ?_, cache_run_iff live, peers_run_iff live⟩
  have books := books_run live a
  rwa [wallet_run] at books

end Runs

/-- A peer connects, pays 30, and leaves. -/
def visit : List (Event Nat) :=
  [.connectionEstablished 0, .transferRequest 0 ⟨(samplePayment 30 0).toRlpBytes⟩, .connectionClosed 0]

theorem state_of_history_visit :
    (∀ a, (run (handle .dev) (start (sampleWallet 1) 5 : Node samplePrimitives Nat) visit).state.ledger.account a =
        entryAfter (sampleWallet 1).address 5
          (creditsIn (run (handle .dev) (start (sampleWallet 1) 5 : Node samplePrimitives Nat) visit).output)
          (transfersIn (run (handle .dev) (start (sampleWallet 1) 5 : Node samplePrimitives Nat) visit).output) a) ∧
      (∀ h, h ∈ (run (handle .dev) (start (sampleWallet 1) 5 : Node samplePrimitives Nat) visit).state.txCache ↔
        ∃ st ∈ steps (handle .dev) (start (sampleWallet 1) 5 : Node samplePrimitives Nat) visit, ∃ tx,
          st.before.noted st.input = some tx ∧ tx.hash samplePrimitives = h) ∧
      ∀ peer, peer ∈ (run (handle .dev) (start (sampleWallet 1) 5 : Node samplePrimitives Nat)
          visit).state.connectedPeers ↔ LastConnected peer visit :=
  state_of_history (by decide +kernel)

end Node
end SecureExchange
