import SecureExchange.Library.Completion
import SecureExchange.Linearizability

namespace SecureExchange
open Linearization

namespace Ledger

/-- How many steps a call still has to take at most. -/
def rank : Phase Point (Option Returned) → Nat
  | .waiting => 4
  | .running .debit => 3
  | .running .credit => 2
  | .running (.release _) => 1
  | .done _ => 0

/-- What a step does to the transfer lock: calls that return at once leave
it alone, and a transfer takes it, keeps it, or gives it back. -/
inductive LockStep (operation : Operation) (s : Shared) :
    Phase Point (Option Returned) → Shared → Point ⊕ Option Returned → Prop
  | free {s' r} (same : s'.locked = s.locked) : LockStep operation s .waiting s' (.inr r)
  | acquire {s'} (vacant : s.locked = false) (taken : s'.locked = true) (proper : Proper operation) :
      LockStep operation s .waiting s' (.inl .debit)
  | keep {s' point point'} (same : s'.locked = s.locked)
      (later : rank (.running point') < rank (.running point)) :
      LockStep operation s (.running point) s' (.inl point')
  | release {s' result} (given : s'.locked = false) :
      LockStep operation s (.running (.release result)) s' (.inr result)

variable {p : Profile} {operation : Operation} {phase : Phase Point (Option Returned)} {s s' : Shared}
  {outcome : Point ⊕ Option Returned}

theorem lockStep_first (moves : (object p).first operation s = some (s', outcome)) :
    LockStep operation s .waiting s' outcome := by
  cases operation with
  | register a balance =>
    cases moves
    exact .free rfl
  | credit a amount =>
    simp only [object] at moves
    split at moves
    · cases moves
      exact .free rfl
    · cases moves
      exact .free rfl
  | transfer fromAddr toAddr amount nonce =>
    simp only [object] at moves
    split at moves
    · cases moves
      exact .free rfl
    rename_i different
    split at moves
    · cases moves
      exact .free rfl
    rename_i nonzero
    split at moves
    · cases moves
    · rename_i vacant
      cases moves
      exact .acquire (Bool.not_eq_true _ ▸ vacant) rfl ⟨different, nonzero⟩

theorem lockStep_next {point : Point} (moves : (object p).step operation point s = some (s', outcome)) :
    LockStep operation s (.running point) s' outcome := by
  cases operation with
  | register | credit => cases moves
  | transfer fromAddr toAddr amount nonce =>
    cases point with
    | debit =>
      simp only [object] at moves
      split at moves
      · cases moves
        exact .keep rfl (by simp [rank])
      · cases moves
        exact .keep rfl (by simp [rank])
      · cases moves
        exact .keep rfl (by simp [rank])
    | credit =>
      simp only [object] at moves
      split at moves
      · cases moves
        exact .keep rfl (by simp [rank])
      · cases moves
        exact .keep rfl (by simp [rank])
    | release result =>
      cases moves
      exact .release rfl

theorem lockStep (moves : (object p).move operation phase s = some (s', outcome)) :
    LockStep operation s phase s' outcome := by
  cases phase with
  | waiting => exact lockStep_first moves
  | running point => exact lockStep_next moves
  | done r => cases moves

theorem rank_falls (moves : (object p).move operation phase s = some (s', outcome)) :
    rank (.ofSum outcome) < rank phase := by
  cases lockStep moves with
  | free => exact Nat.zero_lt_succ 3
  | acquire => exact Nat.lt_succ_self 3
  | keep _ later => exact later
  | release => exact Nat.zero_lt_succ 0

/-- A transfer that holds the lock can always go on. -/
theorem able_of_inside {point : Point} (proper : Proper operation) (s : Shared) :
    (object p).move operation (.running point) s ≠ none := by
  cases operation with
  | register | credit => exact absurd proper id
  | transfer fromAddr toAddr amount nonce =>
    cases point with
    | debit =>
      simp only [Object.move, object]
      split <;> simp
    | credit =>
      simp only [Object.move, object]
      split <;> simp
    | release result => simp [Object.move, object]

/-- While the lock is free, every call can begin. -/
theorem able_of_vacant (operation : Operation) (vacant : s.locked = false) :
    (object p).move operation .waiting s ≠ none := by
  cases operation with
  | register => simp [Object.move, object]
  | credit =>
    simp only [Object.move, object]
    split <;> simp
  | transfer =>
    simp only [Object.move, object, vacant, Bool.false_eq_true, if_false]
    split
    · simp
    · split <;> simp

section Configurations
variable {ι : Type} {calls : ι → Operation} {c : Config ι Shared Point (Option Returned)} {i : ι}

/-- The transfer lock is taken just while one transfer is inside. -/
structure LockHeld (calls : ι → Operation) (c : Config ι Shared Point (Option Returned)) : Prop where
  exclusive : ∀ i j, Inside (c.phase i) → Inside (c.phase j) → i = j
  locked_iff : c.shared.locked = true ↔ ∃ i, Inside (c.phase i)
  proper : ∀ i, Inside (c.phase i) → Proper (calls i)

variable [DecidableEq ι]

theorem inside_iff {s' : Shared} {phase : Phase Point (Option Returned)} {j : ι} :
    Inside ((c.moved i s' phase).phase j) ↔ j = i ∧ Inside phase ∨ j ≠ i ∧ Inside (c.phase j) := by
  refine ⟨inside_moved, ?_⟩
  rintro (⟨rfl, inside⟩ | ⟨different, inside⟩)
  · rwa [Config.moved_self]
  · rwa [Config.moved_ne _ _ _ _ different]

/-- A call that has returned, or not begun, is as good as away. -/
theorem LockHeld.outside (holds : LockHeld calls c) {s' : Shared} {r : Option Returned}
    (waiting : c.phase i = .waiting) (same : s'.locked = c.shared.locked) :
    LockHeld calls (c.moved i s' (.done r)) := by
  have others : ∀ j, Inside ((c.moved i s' (.done r)).phase j) ↔ Inside (c.phase j) := by
    intro j
    rw [inside_iff]
    constructor
    · rintro (⟨_, inside⟩ | ⟨_, inside⟩)
      · exact absurd inside id
      · exact inside
    · intro inside
      refine Or.inr ⟨fun own => ?_, inside⟩
      rw [own, waiting] at inside
      exact inside
  refine ⟨fun j k left right => holds.exclusive j k ((others j).mp left) ((others k).mp right), ?_,
    fun j inside => holds.proper j ((others j).mp inside)⟩
  have shared : (c.moved i s' (.done r)).shared.locked = c.shared.locked := same
  rw [shared, holds.locked_iff]
  exact exists_congr fun j => (others j).symm

/-- With nobody else inside, the lock is the call's own business. -/
theorem LockHeld.inside (alone : ∀ j, j ≠ i → ¬ Inside (c.phase j)) {s' : Shared}
    {phase : Phase Point (Option Returned)} (locked : s'.locked = true ↔ Inside phase)
    (proper : Inside phase → Proper (calls i)) : LockHeld calls (c.moved i s' phase) := by
  have only : ∀ j, Inside ((c.moved i s' phase).phase j) ↔ j = i ∧ Inside phase := by
    intro j
    rw [inside_iff]
    exact or_iff_left fun other => alone j other.1 other.2
  refine ⟨fun j k left right => ((only j).mp left).1.trans ((only k).mp right).1.symm, ?_, ?_⟩
  · have shared : (c.moved i s' phase).shared.locked = s'.locked := rfl
    simp only [shared, locked, only, exists_eq_left]
  · intro j inside
    obtain ⟨rfl, here⟩ := (only j).mp inside
    exact proper here

theorem LockHeld.tick (holds : LockHeld calls c) (i : ι) : LockHeld calls (tick (object p) calls c i) := by
  rcases tick_cases (object p) calls c i with stays | ⟨s', outcome, moves, moved⟩
  · rw [stays]
    exact holds
  rw [moved]
  have step := lockStep moves
  have alone : Inside (c.phase i) → ∀ j, j ≠ i → ¬ Inside (c.phase j) :=
    fun inside j different there => different (holds.exclusive j i there inside)
  generalize before : c.phase i = phase at step
  cases step with
  | free same => exact holds.outside before same
  | acquire vacant taken proper =>
    have nobody : ∀ j, ¬ Inside (c.phase j) := by
      intro j inside
      rw [holds.locked_iff.mpr ⟨j, inside⟩] at vacant
      cases vacant
    exact LockHeld.inside (fun j _ => nobody j) (iff_of_true taken trivial) fun _ => proper
  | keep same =>
    have inside : Inside (c.phase i) := by rw [before]; trivial
    have locked : s'.locked = true := same.trans (holds.locked_iff.mpr ⟨i, inside⟩)
    exact LockHeld.inside (alone inside) (iff_of_true locked trivial) fun _ => holds.proper i inside
  | release given =>
    have inside : Inside (c.phase i) := by rw [before]; trivial
    have vacant : ¬ s'.locked = true := by simp [given]
    exact LockHeld.inside (alone inside) (iff_of_false vacant id) fun there => absurd there id

omit [DecidableEq ι] in
theorem lockHeld_start (calls : ι → Operation) (l : Ledger) : LockHeld calls (start ⟨l, false⟩) where
  exclusive _ _ inside _ := absurd inside id
  locked_iff := ⟨fun locked => Bool.noConfusion locked, fun ⟨_, inside⟩ => absurd inside id⟩
  proper _ inside := absurd inside id

omit [DecidableEq ι] in
/-- Some call that has not returned can go on: whoever is inside, or else
any of them. -/
theorem LockHeld.able (holds : LockHeld calls c) (unfinished : (c.phase i).isDone = false) :
    ∃ j, (object p).move (calls j) (c.phase j) c.shared ≠ none := by
  by_cases somebody : ∃ j, Inside (c.phase j)
  · obtain ⟨j, inside⟩ := somebody
    have proper := holds.proper j inside
    refine ⟨j, ?_⟩
    cases phase : c.phase j with
    | running point => exact able_of_inside proper c.shared
    | waiting | done => rw [phase] at inside; exact absurd inside id
  · have vacant : c.shared.locked = false := by
      rw [← Bool.not_eq_true, holds.locked_iff]
      exact somebody
    refine ⟨i, ?_⟩
    cases phase : c.phase i with
    | waiting => exact able_of_vacant (calls i) vacant
    | running point => exact absurd ⟨i, by rw [phase]; trivial⟩ somebody
    | done r => rw [phase] at unfinished; cases unfinished

theorem progress (p : Profile) (calls : ι → Operation) : Progress (object p) calls (LockHeld calls) rank where
  keeps _ i holds := holds.tick i
  falls _ _ _ _ _ moves := rank_falls moves
  able _ holds unfinished := holds.able unfinished.choose_spec

/-- At any moment of any run, whatever the calls, the balances and the
build, at most one transfer is between taking the lock and giving it back,
and the lock is taken just while there is one. -/
theorem lock_exclusive (p : Profile) (calls : ι → Operation) (l : Ledger) (schedule : List ι) :
    (∀ i j, Inside ((runs (object p) calls (start ⟨l, false⟩) schedule).phase i) →
        Inside ((runs (object p) calls (start ⟨l, false⟩) schedule).phase j) → i = j) ∧
      ((runs (object p) calls (start ⟨l, false⟩) schedule).shared.locked = true ↔
        ∃ i, Inside ((runs (object p) calls (start ⟨l, false⟩) schedule).phase i)) := by
  have holds := (progress p calls).keeps_run (lockHeld_start calls l) schedule
  exact ⟨holds.exclusive, holds.locked_iff⟩

variable [Fintype ι]

omit [DecidableEq ι] in
theorem left_start (l : Ledger) :
    left rank (start (⟨l, false⟩ : Shared) : Config ι Shared Point (Option Returned)) = 4 * Fintype.card ι := by
  simp [left, weight, start, rank, Nat.mul_comm]

/-- Concurrent calls never block each other for good, panics inside the
lock included: no schedule takes more than four steps for each call, and
every call has returned or panicked after four rounds for each of them in
which all calls get a turn, in whatever order. -/
theorem calls_complete (p : Profile) (calls : ι → Operation) (l : Ledger) :
    (∀ schedule, stepsIn (object p) calls (start ⟨l, false⟩) schedule ≤ 4 * Fintype.card ι) ∧
      ∀ rounds : List (List ι), (∀ round ∈ rounds, ∀ i, i ∈ round) → 4 * Fintype.card ι ≤ rounds.length →
        ∀ i, ((runs (object p) calls (start ⟨l, false⟩) rounds.flatten).phase i).isDone = true := by
  constructor
  · intro schedule
    have bound := (progress p calls).stepsIn_le (start ⟨l, false⟩) schedule
    rw [left_start] at bound
    omega
  · intro rounds fair enough
    exact (progress p calls).completes (lockHeld_start calls l) fair (by rwa [left_start])

end Configurations
end Ledger
end SecureExchange
