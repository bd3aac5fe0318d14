import Mathlib.Data.Multiset.Bind
import Mathlib.Data.Fintype.Basic
import SecureExchange.Library.Interleaving
import SecureExchange.Emission

namespace SecureExchange
open Reactive

/-- A message under way between nodes. A gossip message is one copy for one
node. -/
inductive Message (ι : Type) where
  | request (src dst : ι) (request : TransferRequest)
  | gossip (dst : ι) (data : List UInt8)
  | response (src dst : ι) (response : TransferResponse)
deriving DecidableEq

namespace Message
variable {ι : Type}

def dst : Message ι → ι
  | .request _ dst _ | .gossip dst _ | .response _ dst _ => dst

def event : Message ι → Event ι
  | .request src _ asked => .transferRequest src asked
  | .gossip _ data => .gossip data
  | .response src _ answer => .transferResponse src answer

/-- The transaction bytes in a message. -/
def data : Message ι → Option (List UInt8)
  | .request _ _ asked => some asked.txRlp
  | .gossip _ data => some data
  | .response .. => none

end Message

/-- What the outside does to the network. A message that is never delivered
is lost. -/
inductive Action (ι : Type) where
  | command (i : ι) (line : String) (now : UInt64) (publishOk : Bool)
  | connect (i peer : ι)
  | disconnect (i peer : ι)
  | deliver (m : Message ι)

abbrev Network (C : Primitives) (ι : Type) := System ι (Node C ι) (Multiset (Message ι))

namespace Network
variable {C : Primitives} {ι : Type} [DecidableEq ι] [Fintype ι]

/-- The messages that an effect of node `i` puts under way: a request to
each connected peer, a published message to every other node, and a response
to whoever asked. -/
def sentBy (i : ι) : Effect ι → Multiset (Message ι)
  | .sendRequest peers request => peers.val.map fun peer => .request i peer request
  | .publish _ data ok => if ok then (Finset.univ.erase i).val.map fun j => .gossip j data else 0
  | .sendResponse peer response => {.response i peer response}
  | _ => 0

def turn (inFlight : Multiset (Message ι)) : Action ι → Option (ι × Event ι)
  | .command i line now publishOk => some (i, .stdin line now publishOk)
  | .connect i peer => some (i, .connectionEstablished peer)
  | .disconnect i peer => some (i, .connectionClosed peer)
  | .deliver m => if m ∈ inFlight then some (m.dst, m.event) else none

/-- The messages left when an action has been taken and answered. -/
def after (inFlight : Multiset (Message ι)) (action : Action ι) (i : ι) (effects : List (Effect ι)) :
    Multiset (Message ι) :=
  let rest := match action with
    | .deliver m => inFlight.erase m
    | _ => inFlight
  rest + (effects : Multiset (Effect ι)).bind (sentBy i)

def schedule : Schedule ι (Event ι) (Effect ι) (Multiset (Message ι)) (Action ι) := ⟨turn, after⟩

/-- The network where every node runs the event loop. -/
def react (p : Profile) : Machine (Network C ι) (Action ι) (ι × Effect ι) :=
  interleave (Node.handle p) schedule

/-- Nodes that have just been started, and no messages. -/
def start (wallets : ι → Wallet C) (genesis : ι → UInt64) : Network C ι where
  parts := fun i => .start (wallets i) (genesis i)
  down := ∅
  shared := 0

section Moves
variable {net : Network C ι} {action : Action ι} {i : ι} {ev : Event ι}

theorem data_of_sentBy {e : Effect ι} {m : Message ι} {data : List UInt8} (sent : m ∈ sentBy i e)
    (carries : m.data = some data) : e.handed = some data := by
  cases e with
  | sendRequest peers asked =>
    obtain ⟨peer, _, rfl⟩ := Multiset.mem_map.mp sent
    exact carries
  | publish topic published ok =>
    simp only [sentBy] at sent
    split at sent
    · obtain ⟨j, _, rfl⟩ := Multiset.mem_map.mp sent
      exact carries
    · exact absurd sent (Multiset.notMem_zero m)
  | sendResponse peer answer =>
    rw [sentBy, Multiset.mem_singleton] at sent
    subst sent
    cases carries
  | transferred | credited | println => exact absurd sent (Multiset.notMem_zero m)

/-- A message is under way because it was before, or because an effect of
the node that moved sent it. -/
theorem mem_after {inFlight : Multiset (Message ι)} {effects : List (Effect ι)} {m : Message ι}
    (member : m ∈ after inFlight action i effects) : m ∈ inFlight ∨ ∃ e ∈ effects, m ∈ sentBy i e := by
  rcases Multiset.mem_add.mp member with old | new
  · left
    cases action with
    | deliver delivered => exact Multiset.mem_of_mem_erase old
    | command | connect | disconnect => exact old
  · right
    obtain ⟨e, among, inside⟩ := Multiset.mem_bind.mp new
    exact ⟨e, Multiset.mem_coe.mp among, inside⟩

/-- A delivery moves the destination of a message under way. -/
theorem deliver_spec {m : Message ι} (moves : move schedule net (.deliver m) = some (i, ev)) :
    m ∈ net.shared ∧ m.dst = i ∧ m.event = ev := by
  obtain ⟨enabled, _⟩ := move_spec moves
  change (if m ∈ net.shared then some (m.dst, m.event) else none) = some (i, ev) at enabled
  split at enabled
  · rename_i present
    cases enabled
    exact ⟨present, rfl, rfl⟩
  · cases enabled

end Moves
end Network
end SecureExchange
