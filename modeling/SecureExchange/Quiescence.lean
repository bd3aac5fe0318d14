import SecureExchange.Confirmation

namespace SecureExchange
open Reactive

theorem totalAmount_perm {left right : List SignedTransaction} (same : left.Perm right) :
    totalAmount left = totalAmount right := (same.map _).sum_eq

namespace Node
variable {C : Primitives} {Peer : Type} [DecidableEq Peer] {p : Profile} {n : Node C Peer} {ev : Event Peer}

/-- The own account balances over an event that is finished and whose
incoming amount fits. What is paid always comes out of the balance. -/
theorem accounts_of_live (live : (n.handle p ev).halted = false)
    (fits : ∀ tx, n.admitted ev = some tx → n.CreditFits tx) :
    (n.handle p ev).state.ownFunds + totalAmount (transfersIn (n.handle p ev).output) =
      n.ownFunds + totalAmount (creditsIn (n.handle p ev).output) := by
  rw [transfersIn_handle live, creditsIn_handle]
  cases pays : n.paymentOf ev with
  | some tx =>
    rcases handle_of_paymentOf p pays with ⟨_, _, _, _, reaction⟩ | ⟨_, line, now, publishOk, _, rfl, _, reaction⟩
    · rw [reaction] at live
      cases live
    · have funds := ownFunds_paid (payment_spec pays).2.2.2
      rw [reaction]
      simpa [admitted] using funds
  | none =>
    cases admits : n.admitted ev with
    | some tx =>
      rcases handle_of_admitted p admits with ⟨_, _, reaction⟩ | ⟨_, _, _, reaction⟩
      · rw [reaction] at live
        cases live
      · rw [reaction, ownFunds_received, Nat.mod_eq_of_lt (fits tx admits)]
        simp
    | none =>
      obtain ⟨_, ledger, _⟩ := handle_of_idle p pays admits
      simp only [ownFunds, ledger, wallet_handle]

/-- A message with a verified payment to this node leaves its hash in the
cache, unless the handler panics on the sum. -/
theorem cached_of_message {m : Message Peer} {tx : SignedTransaction} (carries : m.data = some tx.toRlpBytes)
    (verified : tx.Verified C) (here : tx.toAddr = n.wallet.address) :
    (n.handle p m.event).halted = true ∨ tx.hash C ∈ (n.handle p m.event).state.txCache := by
  have credited : n.admitted m.event = some tx →
      (n.handle p m.event).halted = true ∨ tx.hash C ∈ (n.handle p m.event).state.txCache := by
    intro admits
    cases live : (n.handle p m.event).halted with
    | true => exact Or.inl rfl
    | false => exact Or.inr (cached_of_admitted admits live)
  cases m with
  | request src dst asked =>
    have bytes : asked.txRlp = tx.toRlpBytes := Option.some.inj carries
    apply credited
    simp only [Message.event, admitted, bytes, tx.fromRlpBytes_encoded]
    exact if_pos ⟨verified, here⟩
  | gossip dst data =>
    have bytes : data = tx.toRlpBytes := Option.some.inj carries
    by_cases seen : tx.hash C ∈ n.txCache
    · exact Or.inr (cache_handle_subset p n _ seen)
    · apply credited
      simp only [Message.event, admitted, bytes, tx.fromRlpBytes_encoded]
      exact if_pos ⟨seen, verified, here⟩
  | response => cases carries

end Node

namespace Network
variable {C : Primitives} {ι : Type} [DecidableEq ι] [Fintype ι]

/-- A copy of the transaction was put under way to the node that it pays. -/
def Handed (wallets : ι → Wallet C) (past : List (ι × Effect ι)) (tx : SignedTransaction) : Prop :=
  ∃ entry ∈ past, ∃ m ∈ sentBy entry.1 entry.2,
    m.data = some tx.toRlpBytes ∧ (wallets m.dst).address = tx.toAddr

instance (wallets : ι → Wallet C) (past : List (ι × Effect ι)) (tx : SignedTransaction) :
    Decidable (Handed wallets past tx) :=
  @List.decidableBEx _ _ (fun _ => Multiset.decidableExistsMultiset) past

/-- What became of the payments that were put under way, and where the
hashes in the caches come from. -/
structure Tracked (wallets : ι → Wallet C) (net : Network C ι) (past : List (ι × Effect ι)) : Prop where
  honest : Honest net past
  own : ∀ i, (net.parts i).wallet = wallets i
  backed : ∀ entry ∈ past, ∀ data, entry.2.handed = some data → ∃ tx ∈ sentIn past, data = tx.toRlpBytes
  origin : ∀ m ∈ net.shared, ∃ entry ∈ past, m ∈ sentBy entry.1 entry.2
  arrives : ∀ entry ∈ past, ∀ m ∈ sentBy entry.1 entry.2, ∀ tx : SignedTransaction,
    m.data = some tx.toRlpBytes → (wallets m.dst).address = tx.toAddr →
      m ∈ net.shared ∨ m.dst ∈ net.down ∨ tx.hash C ∈ (net.parts m.dst).txCache
  explained : ∀ i, i ∉ net.down → ∀ h ∈ (net.parts i).txCache, ∃ tx ∈ sentIn past, tx.hash C = h ∧
    (tx.toAddr = (wallets i).address → tx ∈ creditedIn past)
  handed : ∀ tx ∈ creditedIn past, Handed wallets past tx

section Steps
variable {p : Profile} {wallets : ι → Wallet C} {net : Network C ι} {past : List (ι × Effect ι)}
  {action : Action ι} {i : ι} {ev : Event ι}

theorem mem_after_sent {inFlight : Multiset (Message ι)} {effects : List (Effect ι)} {m : Message ι} {e : Effect ι}
    (among : e ∈ effects) (sent : m ∈ sentBy i e) : m ∈ after inFlight action i effects :=
  Multiset.mem_add.mpr (Or.inr (Multiset.mem_bind.mpr ⟨e, Multiset.mem_coe.mpr among, sent⟩))

/-- A message stays under way until it is the one delivered. -/
theorem mem_after_old {inFlight : Multiset (Message ι)} {effects : List (Effect ι)} {m : Message ι}
    (old : m ∈ inFlight) (other : action ≠ .deliver m) : m ∈ after inFlight action i effects := by
  refine Multiset.mem_add.mpr (Or.inl ?_)
  cases action with
  | deliver delivered =>
    have different : m ≠ delivered := fun same => other (by rw [same])
    exact (Multiset.mem_erase_of_ne different).mpr old
  | command | connect | disconnect => exact old

/-- What a transaction that is admitted was delivered in. -/
theorem message_of_admitted {tx : SignedTransaction} (honest : Honest net past)
    (moves : move schedule net action = some (i, ev)) (admits : (net.parts i).admitted ev = some tx) :
    ∃ m ∈ net.shared, action = .deliver m ∧ m.dst = i ∧ m.data = some tx.toRlpBytes := by
  have handles := (Node.admitted_spec admits).1
  obtain ⟨m, rfl⟩ : ∃ m, action = .deliver m := by
    cases action with
    | deliver m => exact ⟨m, rfl⟩
    | command | connect | disconnect =>
      obtain ⟨turn, _⟩ := move_spec moves
      cases turn
      cases admits
  obtain ⟨present, atNode, event⟩ := deliver_spec moves
  subst event
  refine ⟨m, present, rfl, atNode, ?_⟩
  have bytes : ∀ data, m.data = some data → (SignedTransaction.fromRlpBytes data).toOption = some tx →
      m.data = some tx.toRlpBytes := by
    intro data carries decodes
    obtain ⟨sent, _, rfl⟩ := honest.carried m present data carries
    rw [sent.fromRlpBytes_encoded] at decodes
    cases decodes
    exact carries
  cases m with
  | request src dst asked => exact bytes _ rfl handles
  | gossip dst data => exact bytes _ rfl handles
  | response src dst answer => cases handles

theorem Handed.later {tx : SignedTransaction} (handed : Handed wallets past tx) (more : List (ι × Effect ι)) :
    Handed wallets (past ++ more) tx := by
  obtain ⟨entry, member, found⟩ := handed
  exact ⟨entry, List.mem_append_left _ member, found⟩

theorem tracked_arrives (holds : Tracked wallets net past) (moves : move schedule net action = some (i, ev))
    {entry : ι × Effect ι} (member : entry ∈ past ++ (react p net action).output) {m : Message ι}
    (sent : m ∈ sentBy entry.1 entry.2) {tx : SignedTransaction} (carries : m.data = some tx.toRlpBytes)
    (here : (wallets m.dst).address = tx.toAddr) :
    m ∈ (react p net action).state.shared ∨ m.dst ∈ (react p net action).state.down ∨
      tx.hash C ∈ ((react p net action).state.parts m.dst).txCache := by
  have shared : (react p net action).state.shared =
      after net.shared action i ((net.parts i).handle p ev).output := by
    rw [react, interleave_move moves]
    rfl
  rw [shared]
  rcases List.mem_append.mp member with before | now
  · rcases holds.arrives entry before m sent tx carries here with underway | settled
    · by_cases delivered : action = .deliver m
      · subst delivered
        obtain ⟨_, rfl, rfl⟩ := deliver_spec moves
        obtain ⟨part, down, _⟩ := interleave_own (Node.handle p) moves
        obtain ⟨own, among, same⟩ := holds.honest.carried m underway _ carries
        have equal := SignedTransaction.toRlpBytes_inj same
        subst equal
        have atNode : tx.toAddr = (net.parts m.dst).wallet.address := by rw [holds.own, here]
        rw [react, down, part]
        exact Or.inr (Node.cached_of_message carries (holds.honest.verified tx among) atNode)
      · exact Or.inl (mem_after_old underway delivered)
    · exact Or.inr (cache_move moves settled)
  · rw [react, interleave_move moves] at now
    obtain ⟨e, among, rfl⟩ := List.mem_map.mp now
    exact Or.inl (mem_after_sent among sent)

theorem tracked_explained (holds : Tracked wallets net past) (moves : move schedule net action = some (i, ev))
    {j : ι} (up : j ∉ (react p net action).state.down) {h : String}
    (member : h ∈ ((react p net action).state.parts j).txCache) :
    ∃ tx ∈ sentIn (past ++ (react p net action).output), tx.hash C = h ∧
      (tx.toAddr = (wallets j).address → tx ∈ creditedIn (past ++ (react p net action).output)) := by
  have later : ∀ tx ∈ sentIn past, tx ∈ sentIn (past ++ (react p net action).output) := by
    intro tx sent
    rw [sentIn_append]
    exact List.mem_append_left _ sent
  have old : j ∉ net.down → h ∈ (net.parts j).txCache →
      ∃ tx ∈ sentIn (past ++ (react p net action).output), tx.hash C = h ∧
        (tx.toAddr = (wallets j).address → tx ∈ creditedIn (past ++ (react p net action).output)) := by
    intro upBefore cached
    obtain ⟨tx, sent, same, own⟩ := holds.explained j upBefore h cached
    refine ⟨tx, later tx sent, same, fun here => ?_⟩
    rw [creditedIn_append]
    exact List.mem_append_left _ (own here)
  by_cases mover : i = j
  · subst mover
    obtain ⟨part, down, _⟩ := interleave_own (Node.handle p) moves
    rw [react, down, Bool.not_eq_true] at up
    rw [react, part] at member
    rcases Node.cache_handle_new member with cached | ⟨tx, handles, same, own⟩
    · exact old (move_spec moves).2 cached
    · refine ⟨tx, ?_, same, fun here => ?_⟩
      · rcases holds.honest.handled moves handles with pays | sent
        · rw [sentIn_append, react, interleave_move moves, sentIn_own, Node.transfersIn_handle up, pays]
          exact List.mem_append_right _ (List.mem_singleton.mpr rfl)
        · exact later tx sent
      · rw [← holds.own] at here
        rw [creditedIn_append, creditedIn_move moves, own here]
        exact List.mem_append_right _ (List.mem_singleton.mpr rfl)
  · have still : ∀ k, move schedule net action ≠ some (j, k) := fun k found => by
      rw [moves] at found
      cases found
      exact mover rfl
    obtain ⟨part, down, _⟩ := interleave_other (Node.handle p) still
    rw [react, down] at up
    rw [react, part] at member
    exact old up member

theorem tracked_step (holds : Tracked wallets net past) (action : Action ι) :
    Tracked wallets (react p net action).state (past ++ (react p net action).output) := by
  have honest := honest_step (p := p) holds.honest action
  have own : ∀ i, ((react p net action).state.parts i).wallet = wallets i :=
    fun i => (wallet_move p net action i).trans (holds.own i)
  cases moves : move schedule net action with
  | none =>
    rw [react, interleave_idle moves]
    simpa [Reaction.stay] using holds
  | some turn =>
    obtain ⟨i, ev⟩ := turn
    refine ⟨honest, own, ?_, ?_, fun entry member m sent tx => tracked_arrives holds moves member sent,
      fun j up h => tracked_explained holds moves up, ?_⟩
    · intro entry member data hands
      rw [sentIn_append]
      rcases List.mem_append.mp member with before | now
      · obtain ⟨tx, sent, same⟩ := holds.backed entry before data hands
        exact ⟨tx, List.mem_append_left _ sent, same⟩
      · rw [react, interleave_move moves] at now ⊢
        obtain ⟨e, among, rfl⟩ := List.mem_map.mp now
        obtain ⟨tx, sent, same⟩ := Node.handed_handle among hands
        rw [sentIn_own]
        exact ⟨tx, List.mem_append_right _ sent, same⟩
    · intro m member
      rw [react, interleave_move moves] at member ⊢
      rcases mem_after member with before | ⟨e, among, sent⟩
      · obtain ⟨entry, inside, sent⟩ := holds.origin m before
        exact ⟨entry, List.mem_append_left _ inside, sent⟩
      · exact ⟨(i, e), List.mem_append_right _ (List.mem_map_of_mem among), sent⟩
    · intro tx credited
      rw [creditedIn_append, creditedIn_move moves] at credited
      rcases List.mem_append.mp credited with before | now
      · exact (holds.handed tx before).later _
      · have admits := Option.mem_toList.mp now
        obtain ⟨m, present, _, atNode, carries⟩ := message_of_admitted holds.honest moves admits
        obtain ⟨entry, inside, sent⟩ := holds.origin m present
        have here := (Node.admitted_spec admits).2.2
        rw [holds.own, ← atNode] at here
        exact ⟨entry, List.mem_append_left _ inside, m, sent, carries, here.symm⟩

/-- A hash in the cache of the node that a payment is for comes from its credit. -/
theorem Tracked.credited (holds : Tracked wallets net past) (free : CollisionFree C (sentIn past))
    {tx : SignedTransaction} (sent : tx ∈ sentIn past) (here : tx.toAddr = (wallets i).address) (up : i ∉ net.down)
    (cached : tx.hash C ∈ (net.parts i).txCache) : tx ∈ creditedIn past := by
  obtain ⟨other, among, same, own⟩ := holds.explained i up _ cached
  have equal := free.eq_of_hash among sent same
  subst equal
  exact own here

/-- Where a copy of a payment has got to. -/
theorem Tracked.landed (holds : Tracked wallets net past) (free : CollisionFree C (sentIn past))
    {entry : ι × Effect ι} (member : entry ∈ past) {m : Message ι} (sent : m ∈ sentBy entry.1 entry.2)
    {tx : SignedTransaction} (carries : m.data = some tx.toRlpBytes) (here : (wallets m.dst).address = tx.toAddr) :
    m ∈ net.shared ∨ m.dst ∈ net.down ∨ tx ∈ creditedIn past := by
  obtain ⟨other, among, same⟩ := holds.backed entry member _ (data_of_sentBy sent carries)
  have equal := SignedTransaction.toRlpBytes_inj same
  subst equal
  rcases holds.arrives entry member m sent tx carries here with underway | down | cached
  · exact Or.inl underway
  · exact Or.inr (Or.inl down)
  · by_cases up : m.dst ∈ net.down
    · exact Or.inr (Or.inl up)
    · exact Or.inr (Or.inr (holds.credited free among here.symm up cached))

/-- A node goes down by its own step only. -/
theorem live_of_up (moves : move schedule net action = some (i, ev)) (up : (react p net action).state.down = ∅) :
    net.down = ∅ ∧ ((net.parts i).handle p ev).halted = false := by
  rw [react, interleave_move moves] at up
  cases halts : ((net.parts i).handle p ev).halted with
  | true =>
    rw [halts, if_pos rfl] at up
    exact absurd up (Finset.insert_ne_empty _ _)
  | false =>
    rw [halts, if_neg (by simp)] at up
    exact ⟨up, rfl⟩

/-- What all nodes own, and have sent and credited. -/
structure Conserved (wallets : ι → Wallet C) (genesis : ι → UInt64) (net : Network C ι)
    (past : List (ι × Effect ι)) : Prop where
  honest : Honest net past
  remembers : Remembers wallets net past
  balance : net.down = ∅ → (∑ i, (net.parts i).ownFunds) + totalAmount (sentIn past) =
    (∑ i, (genesis i).toNat) + totalAmount (creditedIn past)

/-- The payments that have been sent and not credited so far. -/
def outstanding (past : List (ι × Effect ι)) : List SignedTransaction := (sentIn past).diff (creditedIn past)

omit [DecidableEq ι] [Fintype ι] in
/-- What has been sent is what has been credited and what is on its way. -/
theorem outstanding_perm {past : List (ι × Effect ι)} (once : (creditedIn past).Nodup)
    (backed : creditedIn past ⊆ sentIn past) : (creditedIn past ++ outstanding past).Perm (sentIn past) := by
  have counts : ∀ tx ∈ creditedIn past, (creditedIn past).count tx ≤ (sentIn past).count tx :=
    fun tx _ => (List.subperm_of_subset once backed).count_le tx
  exact List.subperm_append_diff_self_of_count_le counts

omit [DecidableEq ι] [Fintype ι] in
theorem totalAmount_outstanding {past : List (ι × Effect ι)} (once : (creditedIn past).Nodup)
    (backed : creditedIn past ⊆ sentIn past) :
    totalAmount (creditedIn past) + totalAmount (outstanding past) = totalAmount (sentIn past) := by
  rw [← totalAmount_append]
  exact totalAmount_perm (outstanding_perm once backed)

/-- Incoming money fits: it was sent, and everything sent and owned was there
from the beginning. -/
theorem Conserved.creditFits {genesis : ι → UInt64} (holds : Conserved wallets genesis net past)
    (supply : ∑ i, (genesis i).toNat < 2 ^ 64) (first : FirstCopies net action) (up : net.down = ∅)
    (moves : move schedule net action = some (i, ev)) {tx : SignedTransaction}
    (admits : (net.parts i).admitted ev = some tx) : (net.parts i).CreditFits tx := by
  have fresh := holds.remembers.fresh first moves admits
  have sent : tx ∈ sentIn past := by
    rcases holds.honest.handled moves (Node.admitted_spec admits).1 with pays | before
    · rw [Node.paymentOf_of_admitted admits] at pays
      cases pays
    · exact before
  have once : (tx :: creditedIn past).Nodup := List.nodup_cons.mpr ⟨fresh, holds.remembers.once⟩
  have backed := totalAmount_le_of_nodup once (List.cons_subset.mpr ⟨sent, holds.honest.credited⟩)
  rw [totalAmount_cons] at backed
  have balance := holds.balance up
  have part := Finset.single_le_sum (f := fun j => (net.parts j).ownFunds) (fun j _ => Nat.zero_le _)
    (Finset.mem_univ i)
  rw [Node.CreditFits]
  omega

omit [DecidableEq ι] in
/-- What is owned and what is on its way is all there is. -/
theorem Conserved.total {genesis : ι → UInt64} (holds : Conserved wallets genesis net past) (up : net.down = ∅) :
    (∑ i, (net.parts i).ownFunds) + totalAmount (outstanding past) = ∑ i, (genesis i).toNat := by
  have balance := holds.balance up
  have split := totalAmount_outstanding holds.remembers.once holds.honest.credited
  omega

theorem conserved_step {genesis : ι → UInt64} (supply : ∑ i, (genesis i).toNat < 2 ^ 64)
    (distinct : Function.Injective fun i => (wallets i).address) (holds : Conserved wallets genesis net past)
    (first : FirstCopies net action) :
    Conserved wallets genesis (react p net action).state (past ++ (react p net action).output) := by
  refine ⟨honest_step holds.honest action, remembers_step distinct holds.remembers first, fun up => ?_⟩
  cases moves : move schedule net action with
  | none =>
    rw [react, interleave_idle moves] at up ⊢
    simpa [Reaction.stay] using holds.balance up
  | some turn =>
    obtain ⟨i, ev⟩ := turn
    obtain ⟨upBefore, live⟩ := live_of_up moves up
    have step := Node.accounts_of_live live fun tx admits => holds.creditFits supply first upBefore moves admits
    have balance := holds.balance upBefore
    have total := sum_parts_update Node.ownFunds net.parts i ((net.parts i).handle p ev).state
    rw [react, interleave_move moves]
    simp only [sentIn_append, creditedIn_append, totalAmount_append, sentIn_own, creditedIn_own]
    omega

end Steps

section Runs
variable {p : Profile} {wallets : ι → Wallet C} {genesis : ι → UInt64} {actions : List (Action ι)}

theorem tracked_run : Tracked wallets (run (react p) (start wallets genesis) actions).state
    (run (react p) (start wallets genesis) actions).output := by
  have begin : Tracked wallets (start wallets genesis) [] := by
    refine ⟨honest_start, fun i => rfl, ?_, ?_, ?_, ?_, ?_⟩
    · intro entry member
      cases member
    · exact fun m member => absurd member (Multiset.notMem_zero m)
    · intro entry member
      cases member
    · exact fun i _ h member => absurd member (Finset.notMem_empty h)
    · intro tx member
      cases member
  exact run_always (G := fun _ _ => True) (fun _ _ action holds _ => tracked_step holds action) begin
    fun _ _ => trivial

/-- In every run, each copy of a payment that is put under way to its payee
is still under way, or the payee has credited the payment, or is down; and
no payment is credited of which no copy was put under way. -/
theorem payment_not_lost (free : CollisionFree C (sentIn (run (react p) (start wallets genesis) actions).output)) :
    (∀ entry ∈ (run (react p) (start wallets genesis) actions).output, ∀ m ∈ sentBy entry.1 entry.2,
        ∀ tx : SignedTransaction, m.data = some tx.toRlpBytes → (wallets m.dst).address = tx.toAddr →
          m ∈ (run (react p) (start wallets genesis) actions).state.shared ∨
            m.dst ∈ (run (react p) (start wallets genesis) actions).state.down ∨
            tx ∈ creditedIn (run (react p) (start wallets genesis) actions).output) ∧
      ∀ tx ∈ creditedIn (run (react p) (start wallets genesis) actions).output,
        Handed wallets (run (react p) (start wallets genesis) actions).output tx := by
  have holds : Tracked wallets (run (react p) (start wallets genesis) actions).state
      (run (react p) (start wallets genesis) actions).output := tracked_run
  exact ⟨fun _ member _ sent _ => holds.landed free member sent, holds.handed⟩

omit [DecidableEq ι] [Fintype ι] in
theorem remembers_start : Remembers wallets (start wallets genesis) [] := by
  refine ⟨fun i => rfl, List.nodup_nil, ?_⟩
  intro tx member
  cases member

theorem conserved_run (supply : ∑ i, (genesis i).toNat < 2 ^ 64)
    (distinct : Function.Injective fun i => (wallets i).address)
    (first : ∀ st ∈ steps (react p) (start wallets genesis) actions, FirstCopies st.before st.input) :
    Conserved wallets genesis (run (react p) (start wallets genesis) actions).state
      (run (react p) (start wallets genesis) actions).output := by
  have begin : Conserved wallets genesis (start wallets genesis) [] := by
    refine ⟨honest_start, remembers_start, fun _ => ?_⟩
    simp only [start, Node.ownFunds_start]
    rfl
  exact run_always (fun _ _ _ holds here => conserved_step supply distinct holds here) begin first

/-- While every direct request to its addressee is the first copy of its
payment to arrive there and no node has panicked, the own balances and the
payments on their way add up to what the network began with. -/
theorem supply_conserved (supply : ∑ i, (genesis i).toNat < 2 ^ 64)
    (distinct : Function.Injective fun i => (wallets i).address)
    (first : ∀ st ∈ steps (react p) (start wallets genesis) actions, FirstCopies st.before st.input)
    (up : (run (react p) (start wallets genesis) actions).state.down = ∅) :
    (∑ i, ((run (react p) (start wallets genesis) actions).state.parts i).ownFunds) +
        totalAmount (outstanding (run (react p) (start wallets genesis) actions).output) =
      ∑ i, (genesis i).toNat := by
  have holds : Conserved wallets genesis (run (react p) (start wallets genesis) actions).state
      (run (react p) (start wallets genesis) actions).output := conserved_run supply distinct first
  exact holds.total up

theorem count_sentIn (tx : SignedTransaction) (past : List (ι × Effect ι)) :
    (sentIn past).count tx = ∑ i, (transfersIn (outputOf i past)).count tx := by
  refine sum_outputOf (F := fun effects => (transfersIn effects).count tx) rfl (fun left right => ?_) past
  rw [transfersIn_append, List.count_append]

/-- Nodes with different wallets that send no more than 2^64 payments each
send no payment twice. -/
theorem nodup_sentIn (distinct : Function.Injective fun i => (wallets i).address)
    (few : ∀ i, (transfersIn (outputOf i (run (react p) (start wallets genesis) actions).output)).length ≤ 2 ^ 64) :
    (sentIn (run (react p) (start wallets genesis) actions).output).Nodup := by
  have numbered : ∀ i, Numbered (wallets i).address
      (transfersIn (outputOf i (run (react p) (start wallets genesis) actions).output)) := by
    intro i
    have alone := node_run p wallets genesis actions i
    have own : Numbered (wallets i).address (transfersIn (run (Node.handle p) (.start (wallets i) (genesis i))
        (inputsOf schedule i (steps (react p) (start wallets genesis) actions))).output) := Node.numbered_run
    rw [alone] at own
    exact own
  refine List.nodup_iff_count_le_one.mpr fun tx => ?_
  rw [count_sentIn]
  by_cases sender : ∃ i, tx ∈ transfersIn (outputOf i (run (react p) (start wallets genesis) actions).output)
  · obtain ⟨i, sent⟩ := sender
    obtain ⟨k, atIndex⟩ := List.mem_iff_getElem?.mp sent
    have address := (numbered i k tx atIndex).1
    have others : ∀ j ∈ Finset.univ, j ≠ i →
        (transfersIn (outputOf j (run (react p) (start wallets genesis) actions).output)).count tx = 0 := by
      intro j _ different
      refine List.count_eq_zero.mpr fun sentToo => different ?_
      obtain ⟨l, atOther⟩ := List.mem_iff_getElem?.mp sentToo
      exact distinct ((numbered j l tx atOther).1.symm.trans address)
    rw [Finset.sum_eq_single i others (fun absent => absurd (Finset.mem_univ i) absent)]
    exact List.nodup_iff_count_le_one.mp ((numbered i).nodup_nonces (few i)).of_map tx
  · have none : ∀ i ∈ Finset.univ,
        (transfersIn (outputOf i (run (react p) (start wallets genesis) actions).output)).count tx = 0 :=
      fun i _ => List.count_eq_zero.mpr fun sent => sender ⟨i, sent⟩
    rw [Finset.sum_eq_zero none]
    exact Nat.zero_le 1

/-- When nothing is under way any more, the network owns what it began with,
less the payments that were never put under way to a payee, and every payment
of which a copy went to its payee has been credited once. -/
theorem supply_quiescent (supply : ∑ i, (genesis i).toNat < 2 ^ 64)
    (distinct : Function.Injective fun i => (wallets i).address)
    (first : ∀ st ∈ steps (react p) (start wallets genesis) actions, FirstCopies st.before st.input)
    (up : (run (react p) (start wallets genesis) actions).state.down = ∅)
    (free : CollisionFree C (sentIn (run (react p) (start wallets genesis) actions).output))
    (few : ∀ i, (transfersIn (outputOf i (run (react p) (start wallets genesis) actions).output)).length ≤ 2 ^ 64)
    (silent : (run (react p) (start wallets genesis) actions).state.shared = 0) :
    (∑ i, ((run (react p) (start wallets genesis) actions).state.parts i).ownFunds) +
        totalAmount ((sentIn (run (react p) (start wallets genesis) actions).output).filter
          fun tx => ¬ Handed wallets (run (react p) (start wallets genesis) actions).output tx) =
      ∑ i, (genesis i).toNat ∧
    ∀ tx, Handed wallets (run (react p) (start wallets genesis) actions).output tx →
      (creditedIn (run (react p) (start wallets genesis) actions).output).count tx = 1 := by
  have books : Conserved wallets genesis (run (react p) (start wallets genesis) actions).state
      (run (react p) (start wallets genesis) actions).output := conserved_run supply distinct first
  have tracks : Tracked wallets (run (react p) (start wallets genesis) actions).state
      (run (react p) (start wallets genesis) actions).output := tracked_run
  have arrived : ∀ tx, Handed wallets (run (react p) (start wallets genesis) actions).output tx ↔
      tx ∈ creditedIn (run (react p) (start wallets genesis) actions).output := by
    refine fun tx => ⟨?_, tracks.handed tx⟩
    rintro ⟨entry, member, m, sent, carries, here⟩
    rcases tracks.landed free member sent carries here with underway | down | credited
    · rw [silent] at underway
      exact absurd underway (Multiset.notMem_zero m)
    · rw [up] at down
      exact absurd down (Finset.notMem_empty m.dst)
    · exact credited
  have rest : outstanding (run (react p) (start wallets genesis) actions).output =
      (sentIn (run (react p) (start wallets genesis) actions).output).filter
        fun tx => ¬ Handed wallets (run (react p) (start wallets genesis) actions).output tx := by
    rw [outstanding, (nodup_sentIn distinct few).sdiff_eq_filter]
    exact List.filter_congr fun tx _ => by simp only [arrived]
  rw [← rest]
  exact ⟨books.total up, fun tx given => List.count_eq_one_of_mem books.remembers.once ((arrived tx).mp given)⟩

/-- One payment, both of its copies delivered, and the answer as well. -/
def untilSilent : List (Action (Fin 2)) :=
  directThenGossip ++ [.deliver (.response payee payer ⟨true, "", (samplePayment 30 0).hash samplePrimitives⟩)]

theorem payment_not_lost_untilSilent :
    (∀ entry ∈ (run (react .dev) (start samplePair ![1000, 0]) untilSilent).output,
        ∀ m ∈ sentBy entry.1 entry.2, ∀ tx : SignedTransaction, m.data = some tx.toRlpBytes →
          (samplePair m.dst).address = tx.toAddr →
            m ∈ (run (react .dev) (start samplePair ![1000, 0]) untilSilent).state.shared ∨
              m.dst ∈ (run (react .dev) (start samplePair ![1000, 0]) untilSilent).state.down ∨
              tx ∈ creditedIn (run (react .dev) (start samplePair ![1000, 0]) untilSilent).output) ∧
      ∀ tx ∈ creditedIn (run (react .dev) (start samplePair ![1000, 0]) untilSilent).output,
        Handed samplePair (run (react .dev) (start samplePair ![1000, 0]) untilSilent).output tx :=
  payment_not_lost (by decide +kernel)

theorem supply_conserved_untilSilent :
    (∑ i, ((run (react .dev) (start samplePair ![1000, 0]) untilSilent).state.parts i).ownFunds) +
        totalAmount (outstanding (run (react .dev) (start samplePair ![1000, 0]) untilSilent).output) =
      ∑ i, ((![1000, 0] : Fin 2 → UInt64) i).toNat :=
  supply_conserved (by decide +kernel) (by decide +kernel) (by decide +kernel) (by decide +kernel)

theorem supply_quiescent_untilSilent :
    (∑ i, ((run (react .dev) (start samplePair ![1000, 0]) untilSilent).state.parts i).ownFunds) +
        totalAmount ((sentIn (run (react .dev) (start samplePair ![1000, 0]) untilSilent).output).filter
          fun tx => ¬ Handed samplePair (run (react .dev) (start samplePair ![1000, 0]) untilSilent).output tx) =
      ∑ i, ((![1000, 0] : Fin 2 → UInt64) i).toNat ∧
    ∀ tx, Handed samplePair (run (react .dev) (start samplePair ![1000, 0]) untilSilent).output tx →
      (creditedIn (run (react .dev) (start samplePair ![1000, 0]) untilSilent).output).count tx = 1 :=
  supply_quiescent (by decide +kernel) (by decide +kernel) (by decide +kernel) (by decide +kernel)
    (by decide +kernel) (by decide +kernel) (by decide +kernel)

end Runs
end Network
end SecureExchange
