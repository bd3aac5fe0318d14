import Mathlib.Data.Multiset.Count
import SecureExchange.Confirmation

namespace SecureExchange
open Reactive

section Effects
variable {Peer : Type} [DecidableEq Peer]

/-- How many requests to a peer an effect sends. -/
def Effect.asks (peer : Peer) : Effect Peer → Nat
  | .sendRequest peers _ => if peer ∈ peers then 1 else 0
  | _ => 0

/-- How many responses to a peer an effect sends. -/
def Effect.answers (peer : Peer) : Effect Peer → Nat
  | .sendResponse asker _ => if asker = peer then 1 else 0
  | _ => 0

def asksIn (peer : Peer) (effects : List (Effect Peer)) : Nat := (effects.map (Effect.asks peer)).sum

def answersIn (peer : Peer) (effects : List (Effect Peer)) : Nat := (effects.map (Effect.answers peer)).sum

@[simp] theorem asksIn_append (peer : Peer) (before after : List (Effect Peer)) :
    asksIn peer (before ++ after) = asksIn peer before + asksIn peer after := by simp [asksIn]

@[simp] theorem answersIn_append (peer : Peer) (before after : List (Effect Peer)) :
    answersIn peer (before ++ after) = answersIn peer before + answersIn peer after := by simp [answersIn]

theorem answersIn_eq_zero {peer : Peer} {effects : List (Effect Peer)}
    (silent : ∀ response, .sendResponse peer response ∉ effects) : answersIn peer effects = 0 := by
  refine List.sum_eq_zero fun count member => ?_
  obtain ⟨e, among, rfl⟩ := List.mem_map.mp member
  cases e with
  | sendResponse asker response =>
    refine if_neg fun same => ?_
    rw [same] at among
    exact silent response among
  | transferred | credited | sendRequest | publish | println => rfl

end Effects

namespace Node
variable {C : Primitives} {Peer : Type} [DecidableEq Peer] {p : Profile} {n : Node C Peer}

/-- A request that is handled to its end gets one response. -/
theorem answersIn_request {peer : Peer} {request : TransferRequest} :
    answersIn peer (n.handleTransferRequest p peer request).output =
      if (n.handleTransferRequest p peer request).halted = true then 0 else 1 := by
  generalize reaction : n.handleTransferRequest p peer request = r
  unfold handleTransferRequest at reaction
  split at reaction
  · subst reaction
    simp [answersIn, Effect.answers]
  · dsimp only at reaction
    split at reaction
    · subst reaction
      simp [answersIn, Effect.answers]
    · split at reaction
      · subst reaction
        simp [answersIn, Effect.answers]
      · split at reaction
        · subst reaction
          simp [answersIn, Effect.answers]
        · subst reaction
          simp [answersIn, Effect.answers]

/-- Nothing else is answered. -/
theorem answersIn_other {peer : Peer} {ev : Event Peer} (other : ∀ request, ev ≠ .transferRequest peer request) :
    answersIn peer (n.handle p ev).output = 0 := by
  refine answersIn_eq_zero fun response member => ?_
  obtain ⟨request, same, _⟩ := response_handle member
  exact other request same

end Node

/-- A direct request from one node to another. -/
def Message.IsRequest {ι : Type} (i j : ι) : Message ι → Prop
  | .request src dst _ => src = i ∧ dst = j
  | _ => False

instance {ι : Type} [DecidableEq ι] (i j : ι) : DecidablePred (Message.IsRequest i j) := fun m => by
  unfold Message.IsRequest
  split <;> infer_instance

namespace Network
variable {C : Primitives} {ι : Type} [DecidableEq ι] [Fintype ι]

/-- The requests from `i` to `j` that are under way. -/
def pending (i j : ι) (inFlight : Multiset (Message ι)) : Nat := inFlight.countP (Message.IsRequest i j)

theorem pending_sentBy (i j k : ι) (e : Effect ι) : pending i j (sentBy k e) = if k = i then e.asks j else 0 := by
  cases e with
  | sendRequest peers request =>
    have each : ∀ peer, Message.IsRequest i j (.request k peer request) ↔ k = i ∧ peer = j := fun _ => Iff.rfl
    simp only [pending, sentBy, Multiset.countP_map, each, Effect.asks]
    by_cases here : k = i
    · have counted : (peers.val.filter (j = ·)).card = if j ∈ peers then 1 else 0 := by
        rw [← Multiset.countP_eq_card_filter]
        exact Multiset.count_eq_of_nodup peers.nodup
      simpa only [here, true_and, if_true, eq_comm] using counted
    · simp [here]
  | publish topic data ok =>
    simp only [pending, sentBy, Effect.asks, ite_self]
    split
    · exact Multiset.countP_eq_zero.mpr fun m member => by
        obtain ⟨peer, _, rfl⟩ := Multiset.mem_map.mp member
        exact id
    · rfl
  | sendResponse peer response =>
    simp only [pending, sentBy, Effect.asks, ite_self]
    exact Multiset.countP_eq_zero.mpr fun m member => by
      rw [Multiset.mem_singleton.mp member]
      exact id
  | transferred | credited | println => simp [pending, sentBy, Effect.asks]

theorem pending_bind (i j k : ι) (effects : List (Effect ι)) :
    pending i j ((effects : Multiset (Effect ι)).bind (sentBy k)) = if k = i then asksIn j effects else 0 := by
  induction effects with
  | nil => simp [pending, asksIn]
  | cons e rest ih =>
    have first := pending_sentBy i j k e
    rw [pending] at first ih ⊢
    rw [← Multiset.cons_coe, Multiset.cons_bind, Multiset.countP_add, first, ih]
    by_cases here : k = i
    · simp [here, asksIn]
    · simp [here]

/-- The requests from `i` to `j` in the history of a network. -/
def askedBy (i j : ι) (past : List (ι × Effect ι)) : Nat := asksIn j (outputOf i past)

/-- The responses of `j` to `i`. -/
def answeredBy (j i : ι) (past : List (ι × Effect ι)) : Nat := answersIn i (outputOf j past)

/-- The requests of every node to every other one are under way or have
been answered, but for one that made the other node panic. -/
def Settled (net : Network C ι) (past : List (ι × Effect ι)) : Prop :=
  ∀ i j, pending i j net.shared + answeredBy j i past ≤ askedBy i j past ∧
    askedBy i j past ≤ pending i j net.shared + answeredBy j i past + if j ∈ net.down then 1 else 0

section Steps
variable {p : Profile} {net : Network C ι} {past : List (ι × Effect ι)} {action : Action ι} {i j k : ι} {ev : Event ι}

omit [Fintype ι] in
theorem askedBy_own (effects : List (Effect ι)) :
    askedBy i j (past ++ effects.map fun e => (k, e)) = askedBy i j past + if k = i then asksIn j effects else 0 := by
  rw [askedBy, outputOf_append, asksIn_append, askedBy]
  by_cases here : k = i
  · rw [here, outputOf_own, if_pos rfl]
  · rw [outputOf_other here, if_neg here]
    rfl

omit [Fintype ι] in
theorem answeredBy_own (effects : List (Effect ι)) :
    answeredBy j i (past ++ effects.map fun e => (k, e)) =
      answeredBy j i past + if k = j then answersIn i effects else 0 := by
  rw [answeredBy, outputOf_append, answersIn_append, answeredBy]
  by_cases here : k = j
  · rw [here, outputOf_own, if_pos rfl]
  · rw [outputOf_other here, if_neg here]
    rfl

/-- The messages under way that an action does not deliver. -/
def undelivered (inFlight : Multiset (Message ι)) : Action ι → Multiset (Message ι)
  | .deliver m => inFlight.erase m
  | _ => inFlight

theorem after_eq (inFlight : Multiset (Message ι)) (effects : List (Effect ι)) :
    after inFlight action k effects = undelivered inFlight action + (effects : Multiset (Effect ι)).bind (sentBy k) := by
  cases action with
  | deliver | command | connect | disconnect => rfl

theorem pending_after (inFlight : Multiset (Message ι)) (effects : List (Effect ι)) :
    pending i j (after inFlight action k effects) =
      pending i j (undelivered inFlight action) + if k = i then asksIn j effects else 0 := by
  rw [after_eq, ← pending_bind, pending, Multiset.countP_add]
  rfl

/-- A move either delivers a request of `i` to `j`, which is then one less
under way, or has nothing to do with them. -/
theorem request_cases (moves : move schedule net action = some (k, ev)) (i j : ι) :
    (k = j ∧ (∃ request, ev = .transferRequest i request) ∧
        pending i j (undelivered net.shared action) + 1 = pending i j net.shared) ∨
      (k = j → ∀ request, ev ≠ .transferRequest i request) ∧
        pending i j (undelivered net.shared action) = pending i j net.shared := by
  cases action with
  | command | connect | disconnect =>
    obtain ⟨turn, _⟩ := move_spec moves
    cases turn
    exact Or.inr ⟨fun _ request => by simp, rfl⟩
  | deliver m =>
    obtain ⟨present, rfl, rfl⟩ := deliver_spec moves
    by_cases asks : m.IsRequest i j
    · cases m with
      | request src dst asked =>
        obtain ⟨rfl, rfl⟩ := asks
        refine Or.inl ⟨rfl, ⟨asked, rfl⟩, ?_⟩
        have own : Message.IsRequest src dst (.request src dst asked) := ⟨rfl, rfl⟩
        have erased := Multiset.countP_cons_of_pos (p := Message.IsRequest src dst) (net.shared.erase (.request src dst asked)) own
        rw [Multiset.cons_erase present] at erased
        exact erased.symm
      | gossip | response => exact absurd asks id
    · refine Or.inr ⟨fun atJ request same => asks ?_, ?_⟩
      · cases m with
        | request src dst asked =>
          cases same
          exact ⟨rfl, atJ⟩
        | gossip | response => cases same
      · have erased := Multiset.countP_cons_of_neg (p := Message.IsRequest i j) (net.shared.erase m) asks
        rw [Multiset.cons_erase present] at erased
        exact erased.symm

theorem settled_step (holds : Settled net past) (action : Action ι) :
    Settled (react p net action).state (past ++ (react p net action).output) := by
  intro i j
  obtain ⟨lower, upper⟩ := holds i j
  cases moves : move schedule net action with
  | none =>
    rw [react, interleave_idle moves]
    simp only [Reaction.stay, List.append_nil]
    exact ⟨lower, upper⟩
  | some turn =>
    obtain ⟨k, ev⟩ := turn
    have up := (move_spec moves).2
    rw [react, interleave_move moves]
    simp only [askedBy_own, answeredBy_own]
    have flight : schedule.after net.shared action k ((net.parts k).handle p ev).output =
        after net.shared action k ((net.parts k).handle p ev).output := rfl
    rw [flight, pending_after]
    rcases request_cases moves i j with ⟨rfl, ⟨request, rfl⟩, one⟩ | ⟨other, same⟩
    · have answer : answersIn i ((net.parts k).handle p (.transferRequest i request)).output = _ :=
        Node.answersIn_request
      rw [if_neg up] at upper
      rw [if_pos rfl, answer]
      change _ ∧ _ ≤ _ + if k ∈ (if ((net.parts k).handleTransferRequest p i request).halted = true
        then insert k net.down else net.down) then 1 else 0
      cases ((net.parts k).handleTransferRequest p i request).halted with
      | true =>
        simp only [if_true, Finset.mem_insert_self]
        omega
      | false =>
        simp only [Bool.false_eq_true, if_false]
        omega
    · have silent : (if k = j then answersIn i ((net.parts k).handle p ev).output else 0) = 0 := by
        split
        · rename_i atJ
          exact Node.answersIn_other (other atJ)
        · rfl
      have grows : (if j ∈ net.down then 1 else 0) ≤
          if j ∈ (if ((net.parts k).handle p ev).halted = true then insert k net.down else net.down) then 1 else 0 := by
        by_cases down : j ∈ net.down
        · have still : j ∈ (if ((net.parts k).handle p ev).halted = true then insert k net.down else net.down) := by
            split
            · exact Finset.mem_insert_of_mem down
            · exact down
          rw [if_pos down, if_pos still]
        · rw [if_neg down]
          exact Nat.zero_le _
      rw [silent, same]
      omega

end Steps

section Runs
variable (p : Profile) (wallets : ι → Wallet C) (genesis : ι → UInt64) (actions : List (Action ι))

/-- Request and response stay in step over any link that loses nothing: at
every moment of every run, the direct requests that one node has sent to
another are as many as are under way plus as many as the other one has
answered, each once. One request goes without an answer only if handling it
brought the other node down. -/
theorem requests_answered_once (i j : ι) :
    pending i j (run (react p) (start wallets genesis) actions).state.shared +
          answeredBy j i (run (react p) (start wallets genesis) actions).output ≤
        askedBy i j (run (react p) (start wallets genesis) actions).output ∧
      askedBy i j (run (react p) (start wallets genesis) actions).output ≤
        pending i j (run (react p) (start wallets genesis) actions).state.shared +
          answeredBy j i (run (react p) (start wallets genesis) actions).output +
          if j ∈ (run (react p) (start wallets genesis) actions).state.down then 1 else 0 := by
  have begin : Settled (start wallets genesis) [] := fun i j => ⟨Nat.le_refl 0, Nat.zero_le _⟩
  have holds : Settled (run (react p) (start wallets genesis) actions).state
      (run (react p) (start wallets genesis) actions).output :=
    run_always (G := fun _ _ => True) (fun _ _ action holds _ => settled_step holds action) begin fun _ _ => trivial
  exact holds i j

end Runs
end Network
end SecureExchange
