import Mathlib.Algebra.Order.BigOperators.Group.Finset
import SecureExchange.AtMostOnce
import SecureExchange.Network

namespace SecureExchange
open Reactive

theorem totalAmount_le_of_nodup {some all : List SignedTransaction} (once : some.Nodup)
    (inside : some ⊆ all) : totalAmount some ≤ totalAmount all := by
  obtain ⟨part, permuted, sub⟩ := List.subperm_of_subset once inside
  have equal : totalAmount part = totalAmount some := (permuted.map _).sum_eq
  rw [← equal]
  exact (sub.map _).sum_le_sum fun _ _ => Nat.zero_le _

namespace Network
variable {C : Primitives} {ι : Type} [DecidableEq ι] [Fintype ι]

/-- The transactions that the nodes of a network have sent and credited. -/
def sentIn (past : List (ι × Effect ι)) : List SignedTransaction := transfersIn (past.map Prod.snd)

def creditedIn (past : List (ι × Effect ι)) : List SignedTransaction := creditsIn (past.map Prod.snd)

omit [DecidableEq ι] [Fintype ι] in
@[simp] theorem sentIn_append (left right : List (ι × Effect ι)) :
    sentIn (left ++ right) = sentIn left ++ sentIn right := by simp [sentIn]

omit [DecidableEq ι] [Fintype ι] in
@[simp] theorem creditedIn_append (left right : List (ι × Effect ι)) :
    creditedIn (left ++ right) = creditedIn left ++ creditedIn right := by simp [creditedIn]

omit [DecidableEq ι] [Fintype ι] in
@[simp] theorem sentIn_own (i : ι) (effects : List (Effect ι)) :
    sentIn (effects.map fun e => (i, e)) = transfersIn effects := by simp [sentIn, Function.comp_def]

omit [DecidableEq ι] [Fintype ι] in
@[simp] theorem creditedIn_own (i : ι) (effects : List (Effect ι)) :
    creditedIn (effects.map fun e => (i, e)) = creditsIn effects := by simp [creditedIn, Function.comp_def]

/-- A network in which only nodes that run this code have sent anything:
what is under way and what has been credited was sent by one of them. -/
structure Honest (net : Network C ι) (past : List (ι × Effect ι)) : Prop where
  carried : ∀ m ∈ net.shared, ∀ data, m.data = some data → ∃ tx ∈ sentIn past, data = tx.toRlpBytes
  verified : ∀ tx ∈ sentIn past, tx.Verified C
  credited : creditedIn past ⊆ sentIn past

/-- No credit is repeated, and a node that is up remembers what it credited. -/
structure Remembers (wallets : ι → Wallet C) (net : Network C ι) (past : List (ι × Effect ι)) : Prop where
  own : ∀ i, (net.parts i).wallet = wallets i
  once : (creditedIn past).Nodup
  cached : ∀ tx ∈ creditedIn past, ∀ i, (wallets i).address = tx.toAddr →
    i ∈ net.down ∨ tx.hash C ∈ (net.parts i).txCache

/-- The node that moves has not yet seen what a direct request makes it credit. -/
def FirstCopies (net : Network C ι) (action : Action ι) : Prop :=
  ∀ turn ∈ move schedule net action, (net.parts turn.1).FirstCopy turn.2

instance (net : Network C ι) (action : Action ι) : Decidable (FirstCopies net action) :=
  inferInstanceAs (Decidable (∀ turn ∈ _, _))

/-- A transaction that comes into a node of an honest network is its own
payment or was sent before. -/
theorem Honest.handled {net : Network C ι} {past : List (ι × Effect ι)} (holds : Honest net past)
    {action : Action ι} {i : ι} {ev : Event ι} (moves : move schedule net action = some (i, ev))
    {tx : SignedTransaction} (handles : (net.parts i).handled ev = some tx) :
    (net.parts i).paymentOf ev = some tx ∨ tx ∈ sentIn past := by
  have known : ∀ m ∈ net.shared, ∀ data, m.data = some data →
      (SignedTransaction.fromRlpBytes data).toOption = some tx → tx ∈ sentIn past := by
    intro m member data carries decodes
    obtain ⟨sent, among, rfl⟩ := holds.carried m member data carries
    rw [sent.fromRlpBytes_encoded] at decodes
    cases decodes
    exact among
  cases action with
  | command j line now publishOk =>
    obtain ⟨turn, _⟩ := move_spec moves
    cases turn
    exact Or.inl handles
  | connect j peer =>
    obtain ⟨turn, _⟩ := move_spec moves
    cases turn
    cases handles
  | disconnect j peer =>
    obtain ⟨turn, _⟩ := move_spec moves
    cases turn
    cases handles
  | deliver m =>
    obtain ⟨member, rfl, rfl⟩ := deliver_spec moves
    right
    cases m with
    | request src dst asked => exact known _ member _ rfl handles
    | gossip dst data => exact known _ member _ rfl handles
    | response src dst answer => cases handles

theorem honest_step {p : Profile} {net : Network C ι} {past : List (ι × Effect ι)} (holds : Honest net past)
    (action : Action ι) :
    Honest (react p net action).state (past ++ (react p net action).output) := by
  cases moves : move schedule net action with
  | none =>
    rw [react, interleave_idle moves]
    simpa [Reaction.stay] using holds
  | some turn =>
    obtain ⟨i, ev⟩ := turn
    rw [react, interleave_move moves]
    constructor
    case carried =>
      intro m member data carries
      rw [sentIn_append, sentIn_own]
      rcases mem_after member with old | ⟨e, among, sent⟩
      · obtain ⟨tx, before, same⟩ := holds.carried m old data carries
        exact ⟨tx, List.mem_append_left _ before, same⟩
      · obtain ⟨tx, now, same⟩ := Node.handed_handle among (data_of_sentBy sent carries)
        exact ⟨tx, List.mem_append_right _ now, same⟩
    case verified =>
      intro tx member
      rw [sentIn_append, sentIn_own] at member
      rcases List.mem_append.mp member with before | now
      · exact holds.verified tx before
      · exact Node.verified_of_transferred now
    case credited =>
      intro tx member
      rw [creditedIn_append, creditedIn_own, Node.creditsIn_handle] at member
      rw [sentIn_append, sentIn_own]
      rcases List.mem_append.mp member with before | now
      · exact List.mem_append_left _ (holds.credited before)
      · have admits := Option.mem_toList.mp now
        rcases holds.handled moves (Node.admitted_spec admits).1 with pays | sent
        · rw [Node.paymentOf_of_admitted admits] at pays
          cases pays
        · exact List.mem_append_left _ sent

/-- What a move leaves of the other nodes, and adds to the mover. -/
theorem cache_move {p : Profile} {net : Network C ι} {action : Action ι} {i j : ι} {ev : Event ι} {h : String}
    (moves : move schedule net action = some (i, ev)) (before : j ∈ net.down ∨ h ∈ (net.parts j).txCache) :
    j ∈ (react p net action).state.down ∨ h ∈ ((react p net action).state.parts j).txCache := by
  by_cases same : i = j
  · subst same
    obtain ⟨part, _, _⟩ := interleave_own (Node.handle p) moves
    right
    rw [react, part]
    exact Node.cache_handle_subset p _ ev (before.resolve_left (move_spec moves).2)
  · have still : ∀ k, move schedule net action ≠ some (j, k) := fun k found => by
      rw [moves] at found
      cases found
      exact same rfl
    obtain ⟨part, down, _⟩ := interleave_other (Node.handle p) still
    rw [react, part, down]
    exact before

/-- A move credits what the mover admits. -/
theorem creditedIn_move {p : Profile} {net : Network C ι} {action : Action ι} {i : ι} {ev : Event ι}
    (moves : move schedule net action = some (i, ev)) :
    creditedIn (react p net action).output = ((net.parts i).admitted ev).toList := by
  rw [react, interleave_move moves, creditedIn_own, Node.creditsIn_handle]

theorem wallet_move (p : Profile) (net : Network C ι) (action : Action ι) (j : ι) :
    ((react p net action).state.parts j).wallet = (net.parts j).wallet := by
  by_cases moves : ∃ ev, move schedule net action = some (j, ev)
  · obtain ⟨ev, moves⟩ := moves
    rw [react, (interleave_own (Node.handle p) moves).1, Node.wallet_handle]
  · have still : ∀ ev, move schedule net action ≠ some (j, ev) := fun ev found => moves ⟨ev, found⟩
    rw [react, (interleave_other (Node.handle p) still).1]

/-- A new credit is not an old one: the node that moves would have it in
its cache. -/
theorem Remembers.fresh {wallets : ι → Wallet C} {net : Network C ι} {past : List (ι × Effect ι)}
    {action : Action ι} {i : ι} {ev : Event ι} {tx : SignedTransaction} (holds : Remembers wallets net past)
    (first : FirstCopies net action) (moves : move schedule net action = some (i, ev))
    (admits : (net.parts i).admitted ev = some tx) : tx ∉ creditedIn past := by
  intro member
  obtain ⟨_, _, here⟩ := Node.admitted_spec admits
  rw [holds.own] at here
  rcases holds.cached tx member i here.symm with down | cached
  · exact (move_spec moves).2 down
  · exact (first (i, ev) moves).fresh admits cached

theorem remembers_step {p : Profile} {wallets : ι → Wallet C} {net : Network C ι}
    {past : List (ι × Effect ι)} {action : Action ι}
    (distinct : Function.Injective fun i => (wallets i).address) (holds : Remembers wallets net past)
    (first : FirstCopies net action) :
    Remembers wallets (react p net action).state (past ++ (react p net action).output) := by
  cases moves : move schedule net action with
  | none =>
    rw [react, interleave_idle moves]
    simpa [Reaction.stay] using holds
  | some turn =>
    obtain ⟨i, ev⟩ := turn
    have credits := creditedIn_move (p := p) moves
    obtain ⟨part, halts, _⟩ := interleave_own (Node.handle p) moves
    constructor
    case own => exact fun j => (wallet_move p net action j).trans (holds.own j)
    case once =>
      rw [creditedIn_append, credits]
      refine List.nodup_append.mpr ⟨holds.once, ?_, ?_⟩
      · cases (net.parts i).admitted ev with
        | none => exact List.nodup_nil
        | some tx => exact List.nodup_singleton tx
      · intro old before new now same
        rw [same] at before
        exact holds.fresh first moves (Option.mem_toList.mp now) before
    case cached =>
      intro tx member j address
      rw [creditedIn_append, credits] at member
      rcases List.mem_append.mp member with before | now
      · exact cache_move moves (holds.cached tx before j address)
      · have admits := Option.mem_toList.mp now
        obtain ⟨_, _, here⟩ := Node.admitted_spec admits
        rw [holds.own] at here
        have mover : j = i := distinct (address.trans here)
        subst mover
        rw [react, part, halts]
        cases live : ((net.parts j).handle p ev).halted with
        | true => exact Or.inl rfl
        | false => exact Or.inr (Node.cached_of_admitted admits live)

section Runs
variable {p : Profile} {wallets : ι → Wallet C} {genesis : ι → UInt64} {actions : List (Action ι)}

omit [DecidableEq ι] [Fintype ι] in
theorem honest_start : Honest (start wallets genesis) [] := by
  refine ⟨fun m member => absurd member (Multiset.notMem_zero m), ?_, ?_⟩
  · intro tx member
    cases member
  · intro tx member
    cases member

theorem honest_run :
    Honest (run (react p) (start wallets genesis) actions).state
      (run (react p) (start wallets genesis) actions).output :=
  run_always (G := fun _ _ => True) (fun _ _ action holds _ => honest_step holds action) honest_start
    fun _ _ => trivial

variable (p wallets genesis actions) in
/-- The nodes together hold at most what they began with and were credited,
less what they sent. -/
theorem supply_run :
    (∑ i, ((run (react p) (start wallets genesis) actions).state.parts i).ownFunds) +
        totalAmount (sentIn (run (react p) (start wallets genesis) actions).output) ≤
      (∑ i, (genesis i).toNat) +
        totalAmount (creditedIn (run (react p) (start wallets genesis) actions).output) := by
  let I : Network C ι → List (ι × Effect ι) → Prop := fun net past =>
    (∑ i, (net.parts i).ownFunds) + totalAmount (sentIn past) ≤
      (∑ i, (genesis i).toNat) + totalAmount (creditedIn past)
  have keep : ∀ net past action, I net past → True →
      I (react p net action).state (past ++ (react p net action).output) := by
    intro net past action (holds : _ ≤ _) _
    cases moves : move schedule net action with
    | none =>
      rw [react, interleave_idle moves]
      simpa [I, Reaction.stay] using holds
    | some turn =>
      obtain ⟨i, ev⟩ := turn
      have step := (net.parts i).ownFunds_handle_le p ev
      have total := sum_parts_update Node.ownFunds net.parts i ((net.parts i).handle p ev).state
      rw [react, interleave_move moves]
      simp only [I, sentIn_append, creditedIn_append, totalAmount_append, sentIn_own, creditedIn_own]
      omega
  have begin : I (start wallets genesis) [] := by
    simp only [I, start, Node.ownFunds_start]
    exact le_rfl
  exact run_always (I := I) keep begin fun _ _ => trivial

/-- A transaction that is credited once at most is credited out of what was sent. -/
theorem credited_le_sent (once : (creditedIn (run (react p) (start wallets genesis) actions).output).Nodup) :
    totalAmount (creditedIn (run (react p) (start wallets genesis) actions).output) ≤
      totalAmount (sentIn (run (react p) (start wallets genesis) actions).output) :=
  totalAmount_le_of_nodup once honest_run.credited

/-- While every direct request to its addressee is the first copy of its
payment to arrive there, the own balances of all nodes never exceed what the
nodes began with. -/
theorem no_money_created (distinct : Function.Injective fun i => (wallets i).address)
    (first : ∀ st ∈ steps (react p) (start wallets genesis) actions, FirstCopies st.before st.input) :
    (∑ i, ((run (react p) (start wallets genesis) actions).state.parts i).ownFunds) ≤
      ∑ i, (genesis i).toNat := by
  have begin : Remembers wallets (start wallets genesis) [] := by
    refine ⟨fun i => rfl, List.nodup_nil, ?_⟩
    intro tx member
    cases member
  have remembers : Remembers wallets (run (react p) (start wallets genesis) actions).state
      (run (react p) (start wallets genesis) actions).output :=
    run_always (fun _ _ _ holds here => remembers_step distinct holds here) begin first
  have supply := supply_run p wallets genesis actions
  have backed := credited_le_sent remembers.once
  omega

/-- One payment while the payer is connected to the payee, with both copies
delivered, gossip last. -/
def directThenGossip : List (Action (Fin 2)) :=
  [.connect payer payee, .command payer sampleLine 0 true,
    .deliver (.request payer payee ⟨(samplePayment 30 0).toRlpBytes⟩),
    .deliver (.gossip payee (samplePayment 30 0).toRlpBytes)]

/-- The same with gossip first. -/
def gossipThenDirect : List (Action (Fin 2)) :=
  [.connect payer payee, .command payer sampleLine 0 true,
    .deliver (.gossip payee (samplePayment 30 0).toRlpBytes),
    .deliver (.request payer payee ⟨(samplePayment 30 0).toRlpBytes⟩)]

theorem no_money_created_directThenGossip :
    (∑ i, ((run (react .dev) (start samplePair ![1000, 0]) directThenGossip).state.parts i).ownFunds) ≤
      ∑ i, ((![1000, 0] : Fin 2 → UInt64) i).toNat :=
  no_money_created (by decide +kernel) (by decide +kernel)

/-- The two nodes end up with 30 coins more than they had. -/
theorem gossipThenDirect_creates_money :
    (Function.Injective fun i => (samplePair i).address) ∧
      (∑ i, ((![1000, 0] : Fin 2 → UInt64) i).toNat) < 2 ^ 64 ∧
      ¬ (∑ i, ((run (react .dev) (start samplePair ![1000, 0]) gossipThenDirect).state.parts i).ownFunds) ≤
        ∑ i, ((![1000, 0] : Fin 2 → UInt64) i).toNat := by
  decide +kernel

end Runs
end Network
end SecureExchange
