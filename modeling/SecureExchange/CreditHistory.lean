import SecureExchange.NodeHistory

namespace SecureExchange
open Reactive

/-- No two of the transactions share a Keccak-256 digest. -/
def CollisionFree (C : Primitives) (txs : List SignedTransaction) : Prop :=
  ∀ a ∈ txs, ∀ b ∈ txs, C.keccak256 a.toRlpBytes = C.keccak256 b.toRlpBytes →
    a.toRlpBytes = b.toRlpBytes

instance (C : Primitives) (txs : List SignedTransaction) : Decidable (CollisionFree C txs) := by
  unfold CollisionFree
  infer_instance

theorem CollisionFree.eq_of_hash {C : Primitives} {txs : List SignedTransaction}
    (free : CollisionFree C txs) {a b : SignedTransaction} (left : a ∈ txs) (right : b ∈ txs)
    (same : a.hash C = b.hash C) : a = b := by
  have digests := FixedBytes.ext (hexString_injective same)
  exact SignedTransaction.toRlpBytes_inj (free a left b right digests)

namespace Node
variable {C : Primitives} {Peer : Type}

/-- The transactions that the steps of a run bring into the node. -/
def handledIn (sts : List (Step (Node C Peer) (Event Peer) (Effect Peer))) : List SignedTransaction :=
  sts.filterMap fun st => st.before.handled st.input

theorem mem_handledIn {sts : List (Step (Node C Peer) (Event Peer) (Effect Peer))} {tx : SignedTransaction} :
    tx ∈ handledIn sts ↔ ∃ st ∈ sts, st.before.handled st.input = some tx := by
  rw [handledIn, List.mem_filterMap]

/-- The cache of a node against what the node has credited: a credited
transaction is cached, and a cached hash is that of a transaction among
`txs` which, when addressed to this node, has been credited. -/
structure CacheMatches (txs : List SignedTransaction) (n : Node C Peer) (past : List (Effect Peer)) :
    Prop where
  remembered : ∀ tx ∈ creditsIn past, tx.hash C ∈ n.txCache
  explained : ∀ h ∈ n.txCache, ∃ tx ∈ txs, tx.hash C = h ∧
    (tx.toAddr = n.wallet.address → tx ∈ creditsIn past)

theorem cacheMatches_start (txs : List SignedTransaction) (wallet : Wallet C) (balance : UInt64) :
    CacheMatches txs (start wallet balance : Node C Peer) [] where
  remembered := fun tx member => by cases member
  explained := fun h member => by simp [start] at member

/-- The cache holds the hash of a transaction for this wallet only if the
transaction has been credited. -/
theorem CacheMatches.credited_of_cached {txs : List SignedTransaction} {n : Node C Peer} {past : List (Effect Peer)}
    {tx : SignedTransaction} (holds : CacheMatches txs n past) (free : CollisionFree C txs) (among : tx ∈ txs)
    (here : tx.toAddr = n.wallet.address) (cached : tx.hash C ∈ n.txCache) : tx ∈ creditsIn past := by
  obtain ⟨other, member, same, own⟩ := holds.explained _ cached
  have equal := free.eq_of_hash member among same
  subst equal
  exact own here

variable [DecidableEq Peer]

theorem cacheMatches_step {p : Profile} {txs : List SignedTransaction} {n : Node C Peer}
    {past : List (Effect Peer)} {ev : Event Peer} (holds : CacheMatches txs n past)
    (inside : ∀ tx, n.handled ev = some tx → tx ∈ txs) (live : (n.handle p ev).halted = false) :
    CacheMatches txs (n.handle p ev).state (past ++ (n.handle p ev).output) := by
  have credits := n.creditsIn_handle p ev
  constructor
  · intro tx member
    rw [creditsIn_append, credits] at member
    rcases List.mem_append.mp member with old | new
    · exact n.cache_handle_subset p ev (holds.remembered tx old)
    · exact cached_of_admitted (Option.mem_toList.mp new) live
  · intro h member
    rw [wallet_handle, creditsIn_append, credits]
    rcases cache_handle_new member with old | ⟨tx, handles, same, own⟩
    · obtain ⟨tx, among, same, own⟩ := holds.explained h old
      exact ⟨tx, among, same, fun here => List.mem_append_left _ (own here)⟩
    · refine ⟨tx, inside tx handles, same, fun here => List.mem_append_right _ ?_⟩
      exact Option.mem_toList.mpr (own here)

/-- After any run from the start, while the node is up. -/
theorem cacheMatches_run {p : Profile} {wallet : Wallet C} {balance : UInt64} {events : List (Event Peer)}
    {txs : List SignedTransaction}
    (inside : ∀ tx ∈ handledIn (steps (handle p) (start wallet balance) events), tx ∈ txs)
    (live : (run (handle p) (start wallet balance) events).halted = false) :
    CacheMatches txs (run (handle p) (start wallet balance) events).state
      (run (handle p) (start wallet balance) events).output := by
  refine run_invariant (G := fun n ev => ∀ tx, n.handled ev = some tx → tx ∈ txs)
    (fun n past ev holds here running => cacheMatches_step holds here running)
    (cacheMatches_start txs wallet balance) ?_ live
  intro st member tx handles
  exact inside tx (mem_handledIn.mpr ⟨st, member, handles⟩)

theorem wallet_run (p : Profile) (n : Node C Peer) (events : List (Event Peer)) :
    (run (handle p) n events).state.wallet = n.wallet := by
  let I : Node C Peer → List (Effect Peer) → Prop := fun m _ => m.wallet = n.wallet
  have keep : ∀ m past ev, I m past → True →
      I (handle p m ev).state (past ++ (handle p m ev).output) :=
    fun m _ ev same _ => (wallet_handle p m ev).trans same
  exact run_always (I := I) keep rfl fun _ _ => trivial

/-- The state and the effects before each step of a run. -/
theorem step_history {p : Profile} {n : Node C Peer} {events : List (Event Peer)}
    {st : Step (Node C Peer) (Event Peer) (Effect Peer)} (member : st ∈ steps (handle p) n events) :
    ∃ before after, events = before ++ st.input :: after ∧
      (run (handle p) n before).halted = false ∧ st.before = (run (handle p) n before).state ∧
      st.before.wallet = n.wallet ∧ st.reaction = st.before.handle p st.input := by
  obtain ⟨before, after, split, live, found, answer⟩ := mem_steps_iff.mp member
  exact ⟨before, after, split, live, found, by rw [found, wallet_run], answer⟩

theorem creditsIn_step {p : Profile} {n : Node C Peer} {events : List (Event Peer)}
    {st : Step (Node C Peer) (Event Peer) (Effect Peer)} (member : st ∈ steps (handle p) n events) :
    creditsIn st.reaction.output = (st.before.admitted st.input).toList := by
  rw [reaction_of_mem_steps member]
  exact st.before.creditsIn_handle p st.input

/-- A run credits what its steps admit, in order. -/
theorem creditsIn_run (p : Profile) (n : Node C Peer) (events : List (Event Peer)) :
    creditsIn (run (handle p) n events).output =
      (steps (handle p) n events).filterMap fun st => st.before.admitted st.input := by
  rw [run_output, creditsIn, List.filterMap_flatMap, List.filterMap_eq_flatMap_toList]
  exact List.flatMap_congr fun st member => creditsIn_step member

theorem mem_creditsIn_run {p : Profile} {n : Node C Peer} {events : List (Event Peer)}
    {tx : SignedTransaction} :
    tx ∈ creditsIn (run (handle p) n events).output ↔
      ∃ st ∈ steps (handle p) n events, st.before.admitted st.input = some tx := by
  rw [creditsIn_run, List.mem_filterMap]

/-- Before each step of a run from the start, the cache matches the credits
made so far. -/
theorem cacheMatches_step_of_run {p : Profile} {wallet : Wallet C} {balance : UInt64}
    {events before after : List (Event Peer)} {txs : List SignedTransaction}
    (inside : ∀ tx ∈ handledIn (steps (handle p) (start wallet balance) events), tx ∈ txs)
    (split : events = before ++ after)
    (live : (run (handle p) (start wallet balance) before).halted = false) :
    CacheMatches txs (run (handle p) (start wallet balance) before).state
      (run (handle p) (start wallet balance) before).output := by
  refine cacheMatches_run (fun tx member => inside tx ?_) live
  obtain ⟨st, among, handles⟩ := mem_handledIn.mp member
  refine mem_handledIn.mpr ⟨st, ?_, handles⟩
  rw [split, steps_append live]
  exact List.mem_append_left _ among

end Node
end SecureExchange
