import SecureExchange.Concurrent
import SecureExchange.Sample

namespace SecureExchange
open Linearization

namespace Ledger

/-- The result of a call that has only to give the lock back. -/
def fixed : Point → Option (Option Returned)
  | .release result => some result
  | _ => none

/-- What a call has put into circulation. A credit that panicked counts. -/
def issueOf : Operation → Option Returned → Nat
  | .register _ initialBalance, some (.registered true) => initialBalance.toNat
  | .credit _ amount, _ => amount.toNat
  | _, _ => 0

def issuedBy (operation : Operation) : Phase Point (Option Returned) → Nat
  | .done result => issueOf operation result
  | _ => 0

/-- What a transfer that panicked on its nonce has taken out of circulation. -/
def lostBy : Operation → Phase Point (Option Returned) → Nat
  | .transfer _ _ amount _, .running (.release none) => amount.toNat
  | .transfer _ _ amount _, .done none => amount.toNat
  | _, _ => 0

theorem lostBy_waiting (operation : Operation) : lostBy operation .waiting = 0 := by
  cases operation with
  | register | credit | transfer => rfl

/-- A call that holds the transfer lock. -/
def Inside : Phase Point (Option Returned) → Prop
  | .running _ => True
  | _ => False

/-- A transfer that has passed the checks made without the lock. -/
def Proper : Operation → Prop
  | .transfer fromAddr toAddr amount _ => fromAddr ≠ toAddr ∧ amount ≠ 0
  | _ => False

/-- The accounts as they are found between the two steps of a transfer that
was accepted from a ledger. -/
def Between (p : Profile) (l current : Ledger) : Operation → Prop
  | .transfer fromAddr toAddr amount nonce => l.Accepts fromAddr toAddr amount nonce ∧
    (p = .dev → (l.nextNonce fromAddr).toNat + 1 < 2 ^ 64) ∧ current = l.debited fromAddr amount
  | _ => False

section Between
variable {p : Profile} {l current : Ledger} {operation : Operation}

theorem Between.account (between : Between p l current operation) (a : Address) :
    (current.account a).isSome = (l.account a).isSome := by
  cases operation with
  | register | credit => exact absurd between id
  | transfer =>
    obtain ⟨accepts, _, rfl⟩ := between
    exact account_debited accepts a

theorem Between.funds_le (between : Between p l current operation) (a : Address) : current.funds a ≤ l.funds a := by
  cases operation with
  | register | credit => exact absurd between id
  | transfer =>
    obtain ⟨accepts, _, rfl⟩ := between
    exact funds_debited_le accepts a

theorem Between.register (between : Between p l current operation) {a : Address} (missing : l.account a = none)
    (s : AccountState) : Between p (l.set a s) (current.set a s) operation := by
  cases operation with
  | register | credit => exact absurd between id
  | transfer fromAddr toAddr amount nonce =>
    obtain ⟨accepts, nonceFits, rfl⟩ := between
    obtain ⟨accepts', same⟩ := accepts.of_register (s := s) missing
    obtain ⟨sender, found, _⟩ := accepts.1.account
    have other : a ≠ fromAddr := fun here => by rw [← here, missing] at found; cases found
    exact ⟨accepts', by rwa [same], (debited_set_ne l other s amount).symm⟩

theorem Between.plus (between : Between p l current operation) {a : Address} {amount : UInt64}
    (fits : l.funds a + amount.toNat < 2 ^ 64) : Between p (l.plus a amount) (current.plus a amount) operation := by
  cases operation with
  | register | credit => exact absurd between id
  | transfer fromAddr toAddr moved nonce =>
    obtain ⟨accepts, nonceFits, rfl⟩ := between
    exact ⟨accepts.of_plus fits, by rwa [nextNonce_plus], (debited_plus accepts a amount).symm⟩

theorem Between.supply_lt (between : Between p l current operation) : current.supply < l.supply := by
  cases operation with
  | register | credit => exact absurd between id
  | transfer =>
    obtain ⟨accepts, _, rfl⟩ := between
    have moved := accepts.1.supply_debited
    have positive := accepts.1.amount_pos
    omega

end Between

section Concurrent
variable {ι : Type} [Fintype ι] (p : Profile) (calls : ι → Operation) (l : Ledger)

/-- What the calls of a configuration have put into circulation. -/
def circulated (c : Config ι Shared Point (Option Returned)) : Nat := weight (fun i => issuedBy (calls i)) c

def lost (c : Config ι Shared Point (Option Returned)) : Nat := weight (fun i => lostBy (calls i)) c

/-- A sequential ledger `a` in step with a configuration. It is behind by
the debit of the one transfer that stands between its two steps. -/
structure InStep (a : Ledger) (c : Config ι Shared Point (Option Returned)) : Prop where
  exclusive : ∀ i j, Inside (c.phase i) → Inside (c.phase j) → i = j
  held : ∀ i, Inside (c.phase i) → c.shared.locked = true
  proper : ∀ i, Inside (c.phase i) → Proper (calls i)
  between : ∀ i, c.phase i = .running .credit → Between p a c.shared.ledger (calls i)
  settled : (∀ i, c.phase i ≠ .running .credit) → a = c.shared.ledger
  broken : ∀ i, c.phase i = .done none → Proper (calls i)
  supply : a.supply + lost calls c = l.supply + circulated calls c

variable {p calls l} {a : Ledger} {c : Config ι Shared Point (Option Returned)} {i : ι}

/-- Where a sequential ledger in step with a configuration stands. -/
theorem InStep.stand (holds : InStep p calls l a c) :
    a = c.shared.ledger ∨ ∃ operation, Between p a c.shared.ledger operation := by
  by_cases midway : ∃ j, c.phase j = .running .credit
  · obtain ⟨j, there⟩ := midway
    exact Or.inr ⟨calls j, holds.between j there⟩
  · exact Or.inl (holds.settled fun j there => midway ⟨j, there⟩)

variable [DecidableEq ι]

theorem circulated_moved (calls : ι → Operation) (c : Config ι Shared Point (Option Returned)) (i : ι) (s : Shared)
    (phase : Phase Point (Option Returned)) :
    circulated calls (c.moved i s phase) + issuedBy (calls i) (c.phase i) =
      circulated calls c + issuedBy (calls i) phase :=
  weight_moved (fun i => issuedBy (calls i)) c i s phase

theorem lost_moved (calls : ι → Operation) (c : Config ι Shared Point (Option Returned)) (i : ι) (s : Shared)
    (phase : Phase Point (Option Returned)) :
    lost calls (c.moved i s phase) + lostBy (calls i) (c.phase i) = lost calls c + lostBy (calls i) phase :=
  weight_moved (fun i => lostBy (calls i)) c i s phase

omit [Fintype ι] in
theorem inside_moved {s : Shared} {phase : Phase Point (Option Returned)} {j : ι}
    (inside : Inside ((c.moved i s phase).phase j)) : j = i ∧ Inside phase ∨ j ≠ i ∧ Inside (c.phase j) := by
  by_cases same : j = i
  · subst same
    rw [Config.moved_self] at inside
    exact Or.inl ⟨rfl, inside⟩
  · rw [Config.moved_ne _ _ _ _ same] at inside
    exact Or.inr ⟨same, inside⟩

/-- A call without the lock takes its one step, to which any transfer that
stands between its two steps is blind. -/
theorem InStep.free (holds : InStep p calls l a c) (waiting : c.phase i = .waiting) {a' ledger' : Ledger}
    {r : Option Returned} (catches : a = c.shared.ledger → a' = ledger')
    (passes : ∀ operation, Between p a c.shared.ledger operation → Between p a' ledger' operation)
    (whole : r ≠ none) (supply : a'.supply = a.supply + issueOf (calls i) r) :
    InStep p calls l a' (c.moved i ⟨ledger', c.shared.locked⟩ (.done r)) := by
  have others : ∀ j, Inside ((c.moved i ⟨ledger', c.shared.locked⟩ (.done r)).phase j) →
      j ≠ i ∧ Inside (c.phase j) :=
    fun j inside => (inside_moved inside).resolve_left fun own => own.2
  constructor
  case exclusive => exact fun j k left right => holds.exclusive j k (others j left).2 (others k right).2
  case held => exact fun j inside => holds.held j (others j inside).2
  case proper => exact fun j inside => holds.proper j (others j inside).2
  case between =>
    intro j there
    have elsewhere := (others j (by rw [there]; trivial)).1
    rw [Config.moved_ne _ _ _ _ elsewhere] at there
    exact passes _ (holds.between j there)
  case settled =>
    intro none
    refine catches (holds.settled fun j there => ?_)
    by_cases same : j = i
    · rw [same, waiting] at there
      cases there
    · exact none j (by rw [Config.moved_ne _ _ _ _ same, there])
  case broken =>
    intro j there
    by_cases same : j = i
    · subst same
      rw [Config.moved_self] at there
      cases there
      exact absurd rfl whole
    · rw [Config.moved_ne _ _ _ _ same] at there
      exact holds.broken j there
  case supply =>
    have before := holds.supply
    have grown := circulated_moved calls c i ⟨ledger', c.shared.locked⟩ (.done r)
    have kept := lost_moved calls c i ⟨ledger', c.shared.locked⟩ (.done r)
    have fresh : issuedBy (calls i) (c.phase i) = 0 := by rw [waiting]; rfl
    have intact : lostBy (calls i) (c.phase i) = 0 := by rw [waiting, lostBy_waiting]
    have returned : lostBy (calls i) (.done r) = 0 := by
      cases r with
      | none => exact absurd rfl whole
      | some value =>
        cases calls i with
        | register | credit | transfer => rfl
    have paid : issuedBy (calls i) (.done r) = issueOf (calls i) r := rfl
    omega

theorem Proper.issuedBy {operation : Operation} (proper : Proper operation) (phase : Phase Point (Option Returned)) :
    issuedBy operation phase = 0 := by
  cases operation with
  | register | credit => exact absurd proper id
  | transfer =>
    cases phase with
    | waiting | running => rfl
    | done r => rfl

/-- The one call that holds the lock, or takes it, takes a step. -/
theorem InStep.hold (holds : InStep p calls l a c) (alone : ∀ j, j ≠ i → ¬ Inside (c.phase j))
    (proper : Proper (calls i)) {a' : Ledger} {s : Shared} {phase : Phase Point (Option Returned)}
    (locked : Inside phase → s.locked = true) (between : phase = .running .credit → Between p a' s.ledger (calls i))
    (settled : phase ≠ .running .credit → a' = s.ledger)
    (supply : a'.supply + lostBy (calls i) phase = a.supply + lostBy (calls i) (c.phase i)) :
    InStep p calls l a' (c.moved i s phase) := by
  have only : ∀ j, Inside ((c.moved i s phase).phase j) → j = i ∧ Inside phase :=
    fun j inside => (inside_moved inside).resolve_right fun other => alone j other.1 other.2
  constructor
  case exclusive => exact fun j k left right => (only j left).1.trans (only k right).1.symm
  case held => exact fun j inside => locked (only j inside).2
  case proper =>
    intro j inside
    rw [(only j inside).1]
    exact proper
  case between =>
    intro j there
    have same := (only j (by rw [there]; trivial)).1
    subst same
    rw [Config.moved_self] at there
    exact between there
  case settled => exact fun none => settled fun there => none i (by rw [Config.moved_self, there])
  case broken =>
    intro j there
    by_cases same : j = i
    · rw [same]
      exact proper
    · rw [Config.moved_ne _ _ _ _ same] at there
      exact holds.broken j there
  case supply =>
    have before := holds.supply
    have same := circulated_moved calls c i s phase
    have kept := lost_moved calls c i s phase
    rw [proper.issuedBy, proper.issuedBy] at same
    omega

omit [DecidableEq ι] in
/-- The lock keeps all other calls out. -/
theorem InStep.alone (holds : InStep p calls l a c) (inside : Inside (c.phase i)) :
    ∀ j, j ≠ i → ¬ Inside (c.phase j) := fun j different there => different (holds.exclusive j i there inside)

/-- Nobody else stands between two steps while the holder of the lock does not. -/
theorem InStep.even (holds : InStep p calls l a c) (alone : ∀ j, j ≠ i → ¬ Inside (c.phase j))
    (elsewhere : c.phase i ≠ .running .credit) : a = c.shared.ledger := by
  refine holds.settled fun j there => ?_
  by_cases same : j = i
  · rw [same] at there
    exact elsewhere there
  · exact alone j same (by rw [there]; trivial)

theorem atomically_transfer {fromAddr toAddr : Address} {amount nonce : UInt64} {l' : Ledger}
    {result : Except LedgerError Unit} (outcome : a.transfer p fromAddr toAddr amount nonce = .returned l' result) :
    a.atomically p (.transfer fromAddr toAddr amount nonce) = (l', some (.transferred result)) := by
  simp only [atomically, perform, outcome]

theorem InStep.register (holds : InStep p calls l a c) {address : Address} {initialBalance : UInt64}
    (waiting : c.phase i = .waiting) (call : calls i = .register address initialBalance) :
    Keeps (object p) calls (atomically p) fixed (InStep p calls l) a c i := by
  have undecided : (c.phase i).fate fixed = none := by rw [waiting]; rfl
  have same : (c.shared.ledger.account address).isSome = (a.account address).isSome := by
    rcases holds.stand with even | ⟨operation, between⟩
    · rw [even]
    · exact between.account address
  cases found : a.account address with
  | some state =>
    rw [found] at same
    obtain ⟨state', found'⟩ := Option.isSome_iff_exists.mp same
    have moves : (object p).move (calls i) (c.phase i) c.shared =
        some (⟨c.shared.ledger, c.shared.locked⟩, .inr (some (.registered false))) := by
      rw [waiting, call]
      simp only [Object.move, object, Ledger.register, found']
    have answer : a.atomically p (calls i) = (a, some (.registered false)) := by
      rw [call]
      simp only [atomically, perform, Ledger.register, found]
    refine .commit moves undecided rfl answer (holds.free waiting id (fun _ => id) (by simp) ?_)
    rw [call]
    rfl
  | none =>
    rw [found] at same
    have missing : c.shared.ledger.account address = none := Option.isNone_iff_eq_none.mp (by simpa using same)
    have moves : (object p).move (calls i) (c.phase i) c.shared =
        some (⟨c.shared.ledger.set address (.new initialBalance), c.shared.locked⟩,
          .inr (some (.registered true))) := by
      rw [waiting, call]
      simp only [Object.move, object, Ledger.register, missing]
    have answer : a.atomically p (calls i) =
        (a.set address (.new initialBalance), some (.registered true)) := by
      rw [call]
      simp only [atomically, perform, Ledger.register, found]
    refine .commit moves undecided rfl answer ?_
    refine holds.free waiting (fun even => by rw [even]) (fun _ between => between.register found _) (by simp) ?_
    have whole := a.supply_set address (.new initialBalance)
    rw [funds_of_missing found] at whole
    rw [call]
    exact whole

theorem InStep.credit (holds : InStep p calls l a c) {address : Address} {amount : UInt64}
    (waiting : c.phase i = .waiting) (call : calls i = .credit address amount)
    (room : l.supply + circulated calls c + amount.toNat < 2 ^ 64) :
    Keeps (object p) calls (atomically p) fixed (InStep p calls l) a c i := by
  have share := a.funds_le_supply address
  have supply := holds.supply
  have fits : a.funds address + amount.toNat < 2 ^ 64 := by omega
  have lower : c.shared.ledger.funds address ≤ a.funds address := by
    rcases holds.stand with even | ⟨operation, between⟩
    · rw [even]
    · exact between.funds_le address
  have moves : (object p).move (calls i) (c.phase i) c.shared =
      some (⟨c.shared.ledger.plus address amount, c.shared.locked⟩, .inr (some .credited)) := by
    rw [waiting, call]
    simp only [Object.move, object, Ledger.credit, addToEntry_eq]
    rw [if_neg (by omega)]
  have answer : a.atomically p (calls i) = (a.plus address amount, some .credited) := by
    rw [call]
    simp only [atomically, perform, Ledger.credit, addToEntry_eq]
    rw [if_neg (by omega)]
  refine .commit moves (by rw [waiting]; rfl) rfl answer ?_
  refine holds.free waiting (fun even => by rw [even]) (fun _ between => between.plus fits) (by simp) ?_
  rw [call, supply_plus fits]
  rfl

/-- A transfer fails its first checks, or waits for the lock, or takes it. -/
theorem InStep.acquire (holds : InStep p calls l a c) {fromAddr toAddr : Address} {amount nonce : UInt64}
    (waiting : c.phase i = .waiting) (call : calls i = .transfer fromAddr toAddr amount nonce) :
    Keeps (object p) calls (atomically p) fixed (InStep p calls l) a c i := by
  have undecided : (c.phase i).fate fixed = none := by rw [waiting]; rfl
  have refused : ∀ e, a.transfer p fromAddr toAddr amount nonce = .returned a (.error e) →
      (object p).move (calls i) (c.phase i) c.shared = some (c.shared, .inr (some (.transferred (.error e)))) →
      Keeps (object p) calls (atomically p) fixed (InStep p calls l) a c i := by
    intro e outcome moves
    refine .commit moves undecided rfl (call ▸ atomically_transfer outcome) ?_
    refine holds.free waiting id (fun _ => id) (by simp) ?_
    rw [call]
    rfl
  by_cases same : fromAddr = toAddr
  · refine refused .selfTransfer ?_ ?_
    · rw [transfer, if_pos same]
    · rw [waiting, call]
      simp only [Object.move, object, if_pos same]
  by_cases zero : amount = 0
  · refine refused .zeroValue ?_ ?_
    · rw [transfer, if_neg same, if_pos zero]
    · rw [waiting, call]
      simp only [Object.move, object, if_neg same, if_pos zero]
  cases lock : c.shared.locked with
  | true =>
    refine .wait holds ?_
    rw [waiting, call]
    simp only [Object.move, object, if_neg same, if_neg zero, lock, if_true]
  | false =>
    have moves : (object p).move (calls i) (c.phase i) c.shared = some (⟨c.shared.ledger, true⟩, .inl .debit) := by
      rw [waiting, call]
      simp only [Object.move, object, if_neg same, if_neg zero, lock, Bool.false_eq_true, if_false]
    have empty : ∀ j, ¬ Inside (c.phase j) := by
      intro j inside
      rw [holds.held j inside] at lock
      cases lock
    refine .stutter moves (by rw [waiting]; rfl) ?_
    refine holds.hold (fun j _ => empty j) (by rw [call]; exact ⟨same, zero⟩) (fun _ => rfl)
      (fun there => by cases there) (fun _ => ?_) (by rw [waiting, call]; rfl)
    exact holds.settled fun j there => empty j (by rw [there]; trivial)

/-- The step on the sender's entry decides a transfer that fails. -/
theorem InStep.debit (holds : InStep p calls l a c) {fromAddr toAddr : Address} {amount nonce : UInt64}
    (here : c.phase i = .running .debit) (call : calls i = .transfer fromAddr toAddr amount nonce) :
    Keeps (object p) calls (atomically p) fixed (InStep p calls l) a c i := by
  have inside : Inside (c.phase i) := by rw [here]; trivial
  have alone := holds.alone inside
  have proper := holds.proper i inside
  have lock := holds.held i inside
  have even := holds.even alone (by rw [here]; simp)
  have undecided : (c.phase i).fate fixed = none := by rw [here]; rfl
  have checked := proper
  rw [call] at checked
  obtain ⟨different, nonzero⟩ := checked
  by_cases accepts : a.Accepts fromAddr toAddr amount nonce
  · have stepped := debitEntry_of_accepts (p := p) accepts
    by_cases lastNonce : p = .dev ∧ 2 ^ 64 ≤ (a.nextNonce fromAddr).toNat + 1
    · have outcome := transfer_of_accepts (p := p) accepts
      rw [if_pos lastNonce] at stepped outcome
      have moves : (object p).move (calls i) (c.phase i) c.shared =
          some (⟨a.withdrawn fromAddr amount, c.shared.locked⟩, .inl (.release none)) := by
        rw [here, call]
        simp only [Object.move, object, ← even, stepped]
      have answer : a.atomically p (calls i) = (a.withdrawn fromAddr amount, none) := by
        rw [call]
        simp only [atomically, perform, outcome]
      refine .commit moves undecided rfl answer ?_
      refine holds.hold alone proper (fun _ => lock) (fun there => by cases there) (fun _ => rfl) ?_
      rw [here, call]
      exact accepts.1.supply_withdrawn
    · rw [if_neg lastNonce] at stepped
      have moves : (object p).move (calls i) (c.phase i) c.shared =
          some (⟨a.debited fromAddr amount, c.shared.locked⟩, .inl .credit) := by
        rw [here, call]
        simp only [Object.move, object, ← even, stepped]
      refine .stutter moves (by rw [here]; rfl) ?_
      refine holds.hold alone proper (fun _ => lock) (fun _ => ?_) (fun other => absurd rfl other)
        (by rw [here, call]; rfl)
      rw [call]
      exact ⟨accepts, fun dev => Nat.lt_of_not_le fun large => lastNonce ⟨dev, large⟩, rfl⟩
  · obtain ⟨e, stepped, outcome⟩ := debitEntry_of_not_accepts (p := p) different nonzero accepts
    have moves : (object p).move (calls i) (c.phase i) c.shared =
        some (⟨a, c.shared.locked⟩, .inl (.release (some (.transferred (.error e))))) := by
      rw [here, call]
      simp only [Object.move, object, ← even, stepped]
    refine .commit moves undecided rfl (call ▸ atomically_transfer outcome) ?_
    exact holds.hold alone proper (fun _ => lock) (fun there => by cases there) (fun _ => rfl)
      (by rw [here, call]; rfl)

/-- The step on the recipient's entry is the point at which a transfer that
succeeds takes effect: whatever came between the steps comes before it. -/
theorem InStep.payOut (holds : InStep p calls l a c) {fromAddr toAddr : Address} {amount nonce : UInt64}
    (here : c.phase i = .running .credit) (call : calls i = .transfer fromAddr toAddr amount nonce)
    (room : l.supply + circulated calls c < 2 ^ 64) :
    Keeps (object p) calls (atomically p) fixed (InStep p calls l) a c i := by
  have inside : Inside (c.phase i) := by rw [here]; trivial
  have between := holds.between i here
  rw [call] at between
  obtain ⟨accepts, nonceFits, behind⟩ := between
  have different := accepts.1.1
  have shares := a.two_funds_le_supply different.symm
  have covered := accepts.1.2.2
  have supply := holds.supply
  have untouched := account_debited_ne a different.symm amount
  have sumFits : a.funds toAddr + amount.toNat < 2 ^ 64 := by omega
  have sumFits' : (a.debited fromAddr amount).funds toAddr + amount.toNat < 2 ^ 64 := by
    rwa [funds_congr untouched]
  have outcome := transfer_of_accepts (p := p) accepts
  have nonceRoom : ¬ (p = .dev ∧ 2 ^ 64 ≤ (a.nextNonce fromAddr).toNat + 1) :=
    fun full => absurd (nonceFits full.1) (Nat.not_lt.mpr full.2)
  rw [if_neg nonceRoom, if_neg (by omega)] at outcome
  have moves : (object p).move (calls i) (c.phase i) c.shared =
      some (⟨(a.debited fromAddr amount).plus toAddr amount, c.shared.locked⟩,
        .inl (.release (some (.transferred (.ok ()))))) := by
    rw [here, call]
    simp only [Object.move, object, behind, addToEntry_eq]
    rw [if_neg (by omega)]
  refine .commit moves (by rw [here]; rfl) rfl (call ▸ atomically_transfer outcome) ?_
  refine holds.hold (holds.alone inside) (holds.proper i inside) (fun _ => holds.held i inside)
    (fun there => by cases there) (fun _ => rfl) ?_
  rw [here, call, supply_plus sumFits']
  exact accepts.1.supply_debited

theorem InStep.release (holds : InStep p calls l a c) {fromAddr toAddr : Address} {amount nonce : UInt64}
    {result : Option Returned} (here : c.phase i = .running (.release result))
    (call : calls i = .transfer fromAddr toAddr amount nonce) :
    Keeps (object p) calls (atomically p) fixed (InStep p calls l) a c i := by
  have inside : Inside (c.phase i) := by rw [here]; trivial
  have alone := holds.alone inside
  have moves : (object p).move (calls i) (c.phase i) c.shared = some (⟨c.shared.ledger, false⟩, .inr result) := by
    rw [here, call]
    rfl
  refine .stutter moves (by rw [here]; rfl) ?_
  exact holds.hold alone (holds.proper i inside) (fun gone => absurd gone id) (fun there => by cases there)
    (fun _ => holds.even alone (by rw [here]; simp)) (by rw [here, call]; cases result <;> rfl)

theorem circulated_le_runs (p : Profile) (schedule : List ι) :
    circulated calls c ≤ circulated calls (runs (object p) calls c schedule) := by
  refine weight_le_runs (fun i phase unfinished => ?_) schedule
  cases phase with
  | waiting | running => rfl
  | done => cases unfinished

omit [Fintype ι] [DecidableEq ι] in
theorem credit_moves (p : Profile) (s : Shared) (address : Address) (amount : UInt64) :
    ∃ s' r, (object p).move (.credit address amount) .waiting s = some (s', .inr r) := by
  simp only [Object.move, object]
  split
  · exact ⟨_, _, rfl⟩
  · exact ⟨_, _, rfl⟩

/-- Every step of every call keeps a sequential ledger in step. -/
theorem InStep.keeps (holds : InStep p calls l a c)
    (room : l.supply + circulated calls (tick (object p) calls c i) < 2 ^ 64) :
    Keeps (object p) calls (atomically p) fixed (InStep p calls l) a c i := by
  have grows : circulated calls c ≤ circulated calls (tick (object p) calls c i) := circulated_le_runs p [i]
  cases phase : c.phase i with
  | done result => exact .wait holds (by rw [phase]; rfl)
  | waiting =>
    cases call : calls i with
    | register address initialBalance => exact holds.register phase call
    | transfer fromAddr toAddr amount nonce => exact holds.acquire phase call
    | credit address amount =>
      obtain ⟨s, r, moves⟩ := credit_moves p c.shared address amount
      rw [← call, ← phase] at moves
      have grown := circulated_moved calls c i s (.done r)
      rw [phase, call] at grown
      rw [tick_of_move moves, Phase.ofSum] at room
      refine holds.credit phase call ?_
      simp only [issuedBy, issueOf] at grown
      omega
  | running point =>
    have proper := holds.proper i (by rw [phase]; trivial)
    cases call : calls i with
    | register | credit =>
      rw [call] at proper
      exact absurd proper id
    | transfer fromAddr toAddr amount nonce =>
      cases point with
      | debit => exact holds.debit phase call
      | credit => exact holds.payOut phase call (by omega)
      | release result => exact holds.release phase call

theorem commitPoints (p : Profile) : CommitPoints (object p) fixed := by
  intro call point s s' outcome r moves decided
  cases point with
  | debit | credit => cases decided
  | release result =>
    cases call with
    | register | credit => cases moves
    | transfer =>
      cases moves
      exact decided

theorem simulation (p : Profile) (calls : ι → Operation) (l : Ledger) :
    Simulation (object p) calls (atomically p) fixed (InStep p calls l)
      fun c => l.supply + circulated calls c < 2 ^ 64 :=
  ⟨commitPoints p, fun _ _ _ holds room => holds.keeps room⟩

omit [DecidableEq ι] in
theorem inStep_start (p : Profile) (calls : ι → Operation) (l : Ledger) :
    InStep p calls l l (start ⟨l, false⟩) := by
  constructor
  case exclusive => exact fun i j inside => absurd inside id
  case held => exact fun i inside => absurd inside id
  case proper => exact fun i inside => absurd inside id
  case between => exact fun i there => by cases there
  case settled => exact fun _ => rfl
  case broken => exact fun i there => by cases there
  case supply =>
    have unissued : circulated calls (start ⟨l, false⟩) = 0 := Finset.sum_eq_zero fun _ _ => rfl
    have unlost : lost calls (start ⟨l, false⟩) = 0 := Finset.sum_eq_zero fun i _ => lostBy_waiting (calls i)
    rw [unissued, unlost]

/-- Concurrent calls on a ledger are linearizable: a transfer that succeeds
takes effect with its second step, and any other call with its only one. -/
theorem linearizable (p : Profile) (calls : ι → Operation) (l : Ledger) (schedule : List ι)
    (complete : ∀ i, ((runs (object p) calls (start ⟨l, false⟩) schedule).phase i).isDone = true)
    (room : l.supply + circulated calls (runs (object p) calls (start ⟨l, false⟩) schedule) < 2 ^ 64) :
    ∃ order, Linearizes (object p) calls (atomically p) Shared.ledger ⟨l, false⟩ schedule order := by
  refine ⟨_, (simulation p calls l).linearizes (inStep_start p calls l) ?_ complete ?_⟩
  · rintro early later rfl
    rw [runs_append] at room
    have grows : circulated calls (runs (object p) calls (start ⟨l, false⟩) early) ≤ _ := circulated_le_runs p later
    exact Nat.lt_of_le_of_lt (Nat.add_le_add_left grows _) room
  · intro a c holds finished
    refine holds.settled fun i there => ?_
    have done := finished i
    rw [there] at done
    cases done

end Concurrent

/-- A payment, and the payee registering with a balance of its own. -/
def meeting : Bool → Operation
  | true => .transfer (sampleWallet 2).address (sampleWallet 1).address 4 0
  | false => .register (sampleWallet 1).address 50

/-- The payee registers between the two steps of the payment. -/
theorem linearizable_meeting :
    (∃ order, Linearizes (object .dev) meeting (atomically .dev) Shared.ledger
        ⟨new.set (sampleWallet 2).address ⟨10, 0⟩, false⟩ [true, true, false, true, true] order) ∧
      (runs (object .dev) meeting (start ⟨new.set (sampleWallet 2).address ⟨10, 0⟩, false⟩)
        [true, true, false, true, true]).shared.ledger.funds (sampleWallet 1).address = 54 :=
  ⟨linearizable .dev meeting _ [true, true, false, true, true] (by decide +kernel) (by decide +kernel),
    by decide +kernel⟩

end Ledger
end SecureExchange
