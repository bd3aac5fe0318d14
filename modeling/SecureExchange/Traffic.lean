import SecureExchange.BuildProfiles
import SecureExchange.RequestResponse

namespace SecureExchange
open Reactive

/-- How many deliveries a message leads to: a request brings its response. -/
def Message.load {ι : Type} : Message ι → Nat
  | .request .. => 2
  | .gossip .. | .response .. => 1

namespace Network
variable {C : Primitives} {ι : Type}

def traffic (inFlight : Multiset (Message ι)) : Nat := (inFlight.map Message.load).sum

theorem traffic_add (left right : Multiset (Message ι)) : traffic (left + right) = traffic left + traffic right := by
  simp [traffic]

variable [DecidableEq ι]

theorem traffic_erase {inFlight : Multiset (Message ι)} {m : Message ι} (present : m ∈ inFlight) :
    traffic (inFlight.erase m) + m.load = traffic inFlight := by
  have whole : traffic inFlight = m.load + traffic (inFlight.erase m) := by
    conv_lhs => rw [← Multiset.cons_erase present]
    simp [traffic]
  omega

variable [Fintype ι]

/-- The traffic that a node's effects bring about. -/
def brought (i : ι) (effects : List (Effect ι)) : Nat := traffic ((effects : Multiset (Effect ι)).bind (sentBy i))

section Nodes
variable {p : Profile} {n : Node C ι} {i : ι}

theorem brought_gossip (data : List UInt8) : brought i (n.handleGossip p data).output = 0 := by
  unfold Node.handleGossip
  split
  · rfl
  dsimp only
  split
  · rfl
  split
  · rfl
  split
  · split <;> rfl
  · rfl

theorem brought_response (response : TransferResponse) : brought i (n.handleTransferResponse response).output = 0 := by
  unfold Node.handleTransferResponse
  split <;> rfl

/-- A request that is handled to its end brings its response. -/
theorem brought_request (peer : ι) (request : TransferRequest) :
    brought i (n.handleTransferRequest p peer request).output =
      if (n.handleTransferRequest p peer request).halted = true then 0 else 1 := by
  generalize reaction : n.handleTransferRequest p peer request = r
  unfold Node.handleTransferRequest at reaction
  split at reaction
  · subst reaction
    rfl
  · dsimp only at reaction
    split at reaction
    · subst reaction
      rfl
    · split at reaction
      · subst reaction
        rfl
      · split at reaction
        · subst reaction
          rfl
        · subst reaction
          rfl

/-- What the delivery of a message brings is less than the message. -/
theorem brought_event (p : Profile) (n : Node C ι) (i : ι) (m : Message ι) :
    brought i (n.handle p m.event).output < m.load ∧
      ((n.handle p m.event).halted = false → brought i (n.handle p m.event).output + 1 = m.load) := by
  cases m with
  | request src dst asked =>
    have answer : brought i (n.handle p (Message.request src dst asked).event).output = _ := brought_request src asked
    rw [answer]
    change _ < 2 ∧ (_ → _ + 1 = 2)
    split
    · rename_i halts
      refine ⟨by omega, fun live => ?_⟩
      rw [Message.event, Node.handle, halts] at live
      cases live
    · exact ⟨by omega, fun _ => rfl⟩
  | gossip dst data =>
    have silent : brought i (n.handle p (Message.gossip dst data).event).output = 0 := brought_gossip data
    rw [silent]
    exact ⟨Nat.one_pos, fun _ => rfl⟩
  | response src dst answer =>
    have silent : brought i (n.handle p (Message.response src dst answer).event).output = 0 := brought_response answer
    rw [silent]
    exact ⟨Nat.one_pos, fun _ => rfl⟩

end Nodes

section Deliveries
variable {p : Profile} {net : Network C ι} {m : Message ι} {messages : List (Message ι)}

/-- A delivery uses up traffic: one unit, unless the node that gets the
message panics and leaves the rest of it unanswered. -/
theorem traffic_deliver {i : ι} {ev : Event ι} (moves : move schedule net (.deliver m) = some (i, ev)) :
    traffic (react p net (.deliver m)).state.shared < traffic net.shared ∧
      ((react p net (.deliver m)).state.down = net.down →
        traffic (react p net (.deliver m)).state.shared + 1 = traffic net.shared) := by
  obtain ⟨present, rfl, rfl⟩ := deliver_spec moves
  obtain ⟨less, exactly⟩ := brought_event p (net.parts m.dst) m.dst m
  have rest := traffic_erase present
  have flight : traffic (react p net (.deliver m)).state.shared =
      traffic (net.shared.erase m) + brought m.dst ((net.parts m.dst).handle p m.event).output := by
    rw [react, interleave_move moves]
    exact traffic_add ..
  refine ⟨by omega, fun up => ?_⟩
  have live : ((net.parts m.dst).handle p m.event).halted = false :=
    down_interleave.mp up (m.dst, m.event) moves
  have answered := exactly live
  omega

/-- Messages delivered one after the other, each while it is under way and
its addressee is up. -/
def Deliveries (p : Profile) (net : Network C ι) (messages : List (Message ι)) : Prop :=
  ∀ st ∈ steps (react p) net (messages.map .deliver), (move schedule st.before st.input).isSome

theorem deliveries_cons :
    Deliveries p net (m :: messages) ↔
      (move schedule net (.deliver m)).isSome ∧ Deliveries p (react p net (.deliver m)).state messages := by
  rw [Deliveries, List.map_cons, react, steps_interleave_cons, List.forall_mem_cons]
  rfl

theorem run_deliver_cons :
    (run (react p) net ((m :: messages).map .deliver)).state =
      (run (react p) (react p net (.deliver m)).state (messages.map .deliver)).state := by
  rw [List.map_cons, react, run_interleave_cons]

theorem traffic_deliveries (deliveries : Deliveries p net messages) :
    messages.length + traffic (run (react p) net (messages.map .deliver)).state.shared ≤ traffic net.shared ∧
      ((run (react p) net (messages.map .deliver)).state.down = net.down →
        messages.length + traffic (run (react p) net (messages.map .deliver)).state.shared = traffic net.shared) := by
  induction messages generalizing net with
  | nil =>
    have nothing : (run (react p) net ([].map Action.deliver)).state = net := rfl
    rw [nothing, List.length_nil, Nat.zero_add]
    exact ⟨Nat.le_refl _, fun _ => rfl⟩
  | cons m rest ih =>
    obtain ⟨enabled, later⟩ := deliveries_cons.mp deliveries
    obtain ⟨⟨i, ev⟩, moves⟩ := Option.isSome_iff_exists.mp enabled
    obtain ⟨less, exactly⟩ := traffic_deliver (p := p) moves
    obtain ⟨bound, equal⟩ := ih later
    refine ⟨by rw [run_deliver_cons, List.length_cons]; omega, fun up => ?_⟩
    have first : (react p net (.deliver m)).state.down = net.down := down_first up
    rw [run_deliver_cons] at up
    have tail := equal (up.trans first.symm)
    have head := exactly first
    rw [run_deliver_cons, List.length_cons]
    omega

/-- Deliveries can go on until only messages to nodes that are down are left. -/
theorem exists_deliveries (p : Profile) (net : Network C ι) : ∃ messages, Deliveries p net messages ∧
    ∀ m ∈ (run (react p) net (messages.map .deliver)).state.shared,
      m.dst ∈ (run (react p) net (messages.map .deliver)).state.down := by
  induction size : traffic net.shared using Nat.strong_induction_on generalizing net with
  | _ size ih =>
    by_cases stuck : ∀ m ∈ net.shared, m.dst ∈ net.down
    · refine ⟨[], ?_, stuck⟩
      intro st member
      cases member
    · obtain ⟨m, present, up⟩ : ∃ m ∈ net.shared, m.dst ∉ net.down := by simpa using stuck
      have moves : move schedule net (.deliver m) = some (m.dst, m.event) := by
        simp only [move, schedule, turn, if_pos present, if_neg up]
      obtain ⟨less, _⟩ := traffic_deliver (p := p) moves
      obtain ⟨rest, deliveries, left⟩ := ih _ (size ▸ less) (react p net (.deliver m)).state rfl
      refine ⟨m :: rest, deliveries_cons.mpr ⟨Option.isSome_iff_exists.mpr ⟨_, moves⟩, deliveries⟩, ?_⟩
      rw [run_deliver_cons]
      exact left

/-- Traffic dies down. From any state of the network, and in whatever order
messages are delivered, there are no more deliveries than the traffic under
way allows for, and exactly as many units are used up as there are
deliveries unless a node panics, which no node does in a release build. And
deliveries can always go on until only messages to nodes that are down are
left. -/
theorem traffic_dies_down (p : Profile) (net : Network C ι) :
    (∀ messages, Deliveries p net messages →
        messages.length + traffic (run (react p) net (messages.map .deliver)).state.shared ≤ traffic net.shared ∧
          ((run (react p) net (messages.map .deliver)).state.down = net.down →
            messages.length + traffic (run (react p) net (messages.map .deliver)).state.shared = traffic net.shared)) ∧
      (p = .release → ∀ messages : List (Message ι),
        (run (react p) net (messages.map .deliver)).state.down = net.down) ∧
      ∃ messages, Deliveries p net messages ∧
        ∀ m ∈ (run (react p) net (messages.map .deliver)).state.shared,
          m.dst ∈ (run (react p) net (messages.map .deliver)).state.down := by
  refine ⟨fun messages => traffic_deliveries, ?_, exists_deliveries p net⟩
  rintro rfl messages
  exact down_run_of_live Node.checks_handle.live schedule net (messages.map .deliver)

end Deliveries

end Network
end SecureExchange
