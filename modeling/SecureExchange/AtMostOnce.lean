import SecureExchange.CreditHistory
import SecureExchange.Sample

namespace SecureExchange
open Reactive

namespace Node
variable {C : Primitives} {Peer : Type}

/-- The events of a run that credit the node for a transaction of this hash. -/
def eventsCrediting (C : Primitives) (h : String)
    (sts : List (Step (Node C Peer) (Event Peer) (Effect Peer))) :
    List (Step (Node C Peer) (Event Peer) (Effect Peer)) :=
  sts.filter fun st => (creditsIn st.reaction.output).any fun tx => tx.hash C = h

/-- A direct request with a valid transaction for this wallet comes before
any other copy of it: the cache does not hold the hash yet. -/
def FirstCopy (n : Node C Peer) : Event Peer → Prop
  | .transferRequest _ request =>
    ∀ tx ∈ (SignedTransaction.fromRlpBytes request.txRlp).toOption, tx.Verified C →
      tx.toAddr = n.wallet.address → tx.hash C ∉ n.txCache
  | _ => True

instance (n : Node C Peer) (ev : Event Peer) : Decidable (n.FirstCopy ev) :=
  match ev with
  | .transferRequest _ request => by
    unfold FirstCopy
    infer_instance
  | .stdin .. | .gossip _ | .transferResponse .. | .connectionEstablished _ | .connectionClosed _ =>
    isTrue trivial

/-- On both channels, what is admitted as a first copy is not cached. -/
theorem FirstCopy.fresh {n : Node C Peer} {ev : Event Peer} {tx : SignedTransaction}
    (first : n.FirstCopy ev) (admits : n.admitted ev = some tx) : tx.hash C ∉ n.txCache := by
  obtain ⟨handles, verified, here⟩ := admitted_spec admits
  cases ev with
  | transferRequest peer request => exact first tx handles verified here
  | gossip data =>
    simp only [admitted] at admits
    split at admits
    · cases admits
    · split at admits
      · rename_i conditions
        cases admits
        exact conditions.1
      · cases admits
  | stdin | transferResponse | connectionEstablished | connectionClosed => cases admits

/-- What is not a first copy is admitted although its hash is cached. -/
theorem cached_of_not_firstCopy {n : Node C Peer} {ev : Event Peer} (repeated : ¬ n.FirstCopy ev) :
    ∃ tx, n.admitted ev = some tx ∧ tx.hash C ∈ n.txCache := by
  cases ev with
  | transferRequest peer request =>
    simp only [FirstCopy, not_forall, not_not] at repeated
    obtain ⟨tx, decodes, verified, here, cached⟩ := repeated
    refine ⟨tx, ?_, cached⟩
    cases decoded : SignedTransaction.fromRlpBytes request.txRlp with
    | error e => simp only [decoded, Except.toOption] at decodes; cases decodes
    | ok found =>
      simp only [decoded, Except.toOption, Option.mem_some_iff] at decodes
      subst decodes
      simp only [admitted, decoded]
      exact if_pos ⟨verified, here⟩
  | stdin | gossip | transferResponse | connectionEstablished | connectionClosed =>
    exact absurd trivial repeated

variable [DecidableEq Peer]

/-- Counting the events that credit a hash is counting the hash among the
credits of the run. -/
theorem eventsCrediting_length (p : Profile) (n : Node C Peer) (events : List (Event Peer)) (h : String) :
    (eventsCrediting C h (steps (handle p) n events)).length =
      ((creditsIn (run (handle p) n events).output).map fun tx => tx.hash C).count h := by
  have each : ∀ st ∈ steps (handle p) n events,
      creditsIn st.reaction.output = (st.before.admitted st.input).toList := fun st => creditsIn_step
  rw [creditsIn_run]
  generalize steps (handle p) n events = sts at each
  induction sts with
  | nil => rfl
  | cons st rest ih =>
    have here := each st (List.mem_cons_self ..)
    have there := ih fun other member => each other (List.mem_cons_of_mem _ member)
    unfold eventsCrediting at there ⊢
    rw [List.filter_cons, here]
    cases admits : st.before.admitted st.input with
    | none => simpa [admits] using there
    | some tx =>
      rw [List.filterMap_cons]
      simp only [admits, List.map_cons, List.count_cons]
      by_cases same : tx.hash C = h
      · simp [same, there]
      · simp [same, there]

/-- If every direct request is a first copy, no hash is credited twice. -/
theorem credits_nodup_of_firstCopy {p : Profile} {wallet : Wallet C} {balance : UInt64}
    {events : List (Event Peer)}
    (first : ∀ st ∈ steps (handle p) (start wallet balance) events, st.before.FirstCopy st.input) :
    ((creditsIn (run (handle p) (start wallet balance) events).output).map fun tx => tx.hash C).Nodup := by
  let hashes : List (Effect Peer) → List String := fun past => (creditsIn past).map fun tx => tx.hash C
  let I : Node C Peer → List (Effect Peer) → Prop := fun n past =>
    (hashes past).Nodup ∧ ∀ h ∈ hashes past, h ∈ n.txCache
  -- The credited hashes stay distinct through any step, also through one that panics.
  have distinct : ∀ n past ev, I n past → n.FirstCopy ev →
      (hashes (past ++ (handle p n ev).output)).Nodup := by
    intro n past ev holds here
    simp only [hashes, creditsIn_append, n.creditsIn_handle p ev, List.map_append]
    cases admits : n.admitted ev with
    | none => simpa using holds.1
    | some tx =>
      refine List.nodup_append.mpr ⟨holds.1, by simp, ?_⟩
      intro h old h' new same
      rw [Option.toList_some, List.map_singleton, List.mem_singleton] at new
      rw [same, new] at old
      exact here.fresh admits (holds.2 _ old)
  have keep : ∀ n past ev, I n past → n.FirstCopy ev → (handle p n ev).halted = false →
      I (handle p n ev).state (past ++ (handle p n ev).output) := by
    intro n past ev holds here live
    refine ⟨distinct n past ev holds here, fun h member => ?_⟩
    simp only [hashes, creditsIn_append, n.creditsIn_handle p ev, List.map_append] at member
    rcases List.mem_append.mp member with old | new
    · exact n.cache_handle_subset p ev (holds.2 h old)
    · obtain ⟨tx, admits, rfl⟩ := List.mem_map.mp new
      exact cached_of_admitted (Option.mem_toList.mp admits) live
  exact run_rule (P := fun r => (hashes r.output).Nodup) keep
    (fun n past ev holds here _ => distinct n past ev holds here) (fun n past holds => holds.1)
    (show I (start wallet balance) [] from ⟨List.nodup_nil, fun h member => by cases member⟩) first

/-- A direct request that repeats a cached transaction credits it again. -/
theorem credited_twice {p : Profile} {wallet : Wallet C} {balance : UInt64} {events : List (Event Peer)}
    (free : CollisionFree C (handledIn (steps (handle p) (start wallet balance) events)))
    {st : Step (Node C Peer) (Event Peer) (Effect Peer)} {tx : SignedTransaction}
    (member : st ∈ steps (handle p) (start wallet balance) events)
    (admits : st.before.admitted st.input = some tx) (cached : tx.hash C ∈ st.before.txCache) :
    2 ≤ ((creditsIn (run (handle p) (start wallet balance) events).output).map
      fun tx => tx.hash C).count (tx.hash C) := by
  obtain ⟨before, after, split, live, found, sameWallet, answer⟩ := step_history member
  have holds := cacheMatches_step_of_run (fun _ inside => inside) split live
  rw [← found] at holds
  obtain ⟨other, among, same, own⟩ := holds.explained _ cached
  obtain ⟨handles, _, here⟩ := admitted_spec admits
  have equal : other = tx := free.eq_of_hash among (mem_handledIn.mpr ⟨st, member, handles⟩) same
  subst equal
  -- Once in the prefix, by the cache invariant, and once in this very step.
  have earlier : other ∈ creditsIn (run (handle p) (start wallet balance) before).output := own here
  have now : other ∈ creditsIn (run (handle p) (run (handle p) (start wallet balance) before).state
      (st.input :: after)).output := by
    rw [← found]
    refine mem_creditsIn_run.mpr ⟨⟨st.before, st.input, handle p st.before st.input⟩, ?_, admits⟩
    simp [steps]
  rw [split, run_append live, creditsIn_append, List.map_append, List.count_append]
  have one := List.count_pos_iff.mpr (List.mem_map_of_mem (f := fun tx => tx.hash C) earlier)
  have two := List.count_pos_iff.mpr (List.mem_map_of_mem (f := fun tx => tx.hash C) now)
  omega

/-- Each hash is credited by at most one event of a run, on whichever
channel, exactly when every direct request that the node credits is the
first copy to arrive. GossipSub copies need no such condition. -/
theorem credit_at_most_once_iff {p : Profile} {wallet : Wallet C} {balance : UInt64}
    {events : List (Event Peer)}
    (free : CollisionFree C (handledIn (steps (handle p) (start wallet balance) events))) :
    (∀ h, (eventsCrediting C h (steps (handle p) (start wallet balance) events)).length ≤ 1) ↔
      ∀ st ∈ steps (handle p) (start wallet balance) events, st.before.FirstCopy st.input := by
  constructor
  · intro once st member
    by_contra repeated
    obtain ⟨tx, admits, cached⟩ := cached_of_not_firstCopy repeated
    have twice := credited_twice free member admits cached
    have count := eventsCrediting_length p (start wallet balance) events (tx.hash C)
    have atMost := once (tx.hash C)
    omega
  · intro first h
    rw [eventsCrediting_length]
    exact List.nodup_iff_count_le_one.mp (credits_nodup_of_firstCopy first) h

/-- A payment to wallet 1 on both channels, the direct request first. -/
def directFirst : List (Event Nat) :=
  [.transferRequest 0 ⟨(samplePayment 30 0).toRlpBytes⟩, .gossip (samplePayment 30 0).toRlpBytes]

/-- The same two copies when gossip is the faster channel. -/
def gossipFirst : List (Event Nat) := directFirst.reverse

theorem credit_at_most_once_iff_directFirst :
    CollisionFree samplePrimitives
        (handledIn (steps (handle .dev) (start (sampleWallet 1) 100) directFirst)) ∧
      ((∀ h, (eventsCrediting samplePrimitives h
          (steps (handle .dev) (start (sampleWallet 1) 100) directFirst)).length ≤ 1) ↔
        ∀ st ∈ steps (handle .dev) (start (sampleWallet 1) 100) directFirst,
          st.before.FirstCopy st.input) :=
  ⟨by decide +kernel, credit_at_most_once_iff (by decide +kernel)⟩

/-- The direct handler credits what gossip has already delivered. -/
theorem gossipFirst_credited_twice :
    CollisionFree samplePrimitives
        (handledIn (steps (handle .dev) (start (sampleWallet 1) 100) gossipFirst)) ∧
      ¬ ∀ h, (eventsCrediting samplePrimitives h
        (steps (handle .dev) (start (sampleWallet 1) 100) gossipFirst)).length ≤ 1 := by
  refine ⟨by decide +kernel, fun once => ?_⟩
  have here := once ((samplePayment 30 0).hash samplePrimitives)
  revert here
  decide +kernel

end Node
end SecureExchange
