import Mathlib.Algebra.BigOperators.Group.Finset.Basic
import Mathlib.Algebra.Order.BigOperators.Group.Finset
import Mathlib.Data.Fintype.Basic
import Mathlib.Data.List.Nodup

namespace Linearization

/-- An object whose calls work on a shared state in atomic steps. A step
gives the point where the call goes on or the result it returns with, and
`none` when it has to wait. -/
structure Object (σ α κ ρ : Type) where
  first : α → σ → Option (σ × (κ ⊕ ρ))
  step : α → κ → σ → Option (σ × (κ ⊕ ρ))

/-- How far a call has got. -/
inductive Phase (κ ρ : Type) where
  | waiting
  | running (point : κ)
  | done (result : ρ)

/-- The next step of a call, if it has one. -/
def Object.move {σ α κ ρ : Type} (O : Object σ α κ ρ) (call : α) : Phase κ ρ → σ → Option (σ × (κ ⊕ ρ))
  | .waiting, s => O.first call s
  | .running point, s => O.step call point s
  | .done _, _ => none

namespace Phase
variable {κ ρ : Type}

def ofSum : κ ⊕ ρ → Phase κ ρ
  | .inl point => .running point
  | .inr result => .done result

/-- The result that is fixed already, when some points of a call come after
its effect. -/
def fate (fixed : κ → Option ρ) : Phase κ ρ → Option ρ
  | .waiting => none
  | .running point => fixed point
  | .done result => some result

def isDone : Phase κ ρ → Bool
  | .done _ => true
  | _ => false

theorem exists_of_isDone {phase : Phase κ ρ} (finished : phase.isDone = true) : ∃ r, phase = .done r := by
  cases phase with
  | done r => exact ⟨r, rfl⟩
  | waiting | running => cases finished

end Phase

/-- Calls, one for each element of `ι`, at work on one shared state. -/
structure Config (ι σ κ ρ : Type) where
  shared : σ
  phase : ι → Phase κ ρ

namespace Config
variable {ι σ κ ρ : Type} [DecidableEq ι] (c : Config ι σ κ ρ) (i : ι) (s : σ) (phase : Phase κ ρ)

/-- One call has moved on. -/
def moved : Config ι σ κ ρ := ⟨s, Function.update c.phase i phase⟩

@[simp] theorem moved_self : (c.moved i s phase).phase i = phase := Function.update_self ..

theorem moved_ne {j : ι} (different : j ≠ i) : (c.moved i s phase).phase j = c.phase j :=
  Function.update_of_ne different ..

end Config

section Runs
variable {ι σ α κ ρ : Type} [DecidableEq ι] (O : Object σ α κ ρ) (calls : ι → α)

omit [DecidableEq ι] in
/-- No call has begun. -/
def start (s : σ) : Config ι σ κ ρ := ⟨s, fun _ => .waiting⟩

/-- One call takes its next step. Nothing happens when it has to wait, or
has returned. -/
def tick (c : Config ι σ κ ρ) (i : ι) : Config ι σ κ ρ :=
  match O.move (calls i) (c.phase i) c.shared with
  | none => c
  | some (s, outcome) => c.moved i s (.ofSum outcome)

/-- The calls take steps in the order of a schedule. -/
def runs (c : Config ι σ κ ρ) (schedule : List ι) : Config ι σ κ ρ := schedule.foldl (tick O calls) c

/-- One call has returned when the other has not yet begun. -/
def Precedes (c : Config ι σ κ ρ) (schedule : List ι) (i j : ι) : Prop :=
  ∃ early later, schedule = early ++ later ∧ ((runs O calls c early).phase i).isDone = true ∧
    (runs O calls c early).phase j = .waiting

variable {O calls} {c : Config ι σ κ ρ} {i j : ι} {schedule early later : List ι}

@[simp] theorem runs_nil : runs O calls c [] = c := rfl

@[simp] theorem runs_cons : runs O calls c (i :: later) = runs O calls (tick O calls c i) later := rfl

theorem runs_append : runs O calls c (early ++ later) = runs O calls (runs O calls c early) later :=
  List.foldl_append ..

/-- A tick is a step of the call, or nothing. -/
theorem tick_cases (O : Object σ α κ ρ) (calls : ι → α) (c : Config ι σ κ ρ) (i : ι) :
    tick O calls c i = c ∨ ∃ s outcome, O.move (calls i) (c.phase i) c.shared = some (s, outcome) ∧
      tick O calls c i = c.moved i s (.ofSum outcome) := by
  unfold tick
  split
  · exact Or.inl rfl
  · rename_i s outcome moves
    exact Or.inr ⟨s, outcome, moves, rfl⟩

theorem tick_of_wait (waits : O.move (calls i) (c.phase i) c.shared = none) : tick O calls c i = c := by
  rw [tick, waits]

theorem tick_of_move {s : σ} {outcome : κ ⊕ ρ} (moves : O.move (calls i) (c.phase i) c.shared = some (s, outcome)) :
    tick O calls c i = c.moved i s (.ofSum outcome) := by
  rw [tick, moves]

theorem tick_phase_ne (different : j ≠ i) : (tick O calls c i).phase j = c.phase j := by
  rcases tick_cases O calls c i with same | ⟨_, _, _, moved⟩
  · rw [same]
  · rw [moved, Config.moved_ne _ _ _ _ different]

/-- A call that has returned takes no more steps. -/
theorem runs_done {r : ρ} (finished : c.phase i = .done r) : (runs O calls c schedule).phase i = .done r := by
  induction schedule generalizing c with
  | nil => exact finished
  | cons j later ih =>
    refine ih ?_
    by_cases same : i = j
    · subst same
      rcases tick_cases O calls c i with stays | ⟨_, _, moves, _⟩
      · rw [stays, finished]
      · rw [finished] at moves
        cases moves
    · rw [tick_phase_ne same, finished]

end Runs

section Commit
variable {ι σ α κ ρ : Type} [DecidableEq ι] (O : Object σ α κ ρ) (calls : ι → α) (fixed : κ → Option ρ)

/-- The points of a call that come after its effect, with the result it will return. -/
def CommitPoints : Prop :=
  ∀ call point s s' outcome r, O.step call point s = some (s', outcome) → fixed point = some r →
    (Phase.ofSum outcome).fate fixed = some r

/-- The call that takes effect in a tick. -/
def commit (c : Config ι σ κ ρ) (i : ι) : List ι :=
  if ((c.phase i).fate fixed).isNone && (((tick O calls c i).phase i).fate fixed).isSome then [i] else []

/-- The calls in the order in which they take effect. -/
def commits (c : Config ι σ κ ρ) : List ι → List ι
  | [] => []
  | i :: later => commit O calls fixed c i ++ commits (tick O calls c i) later

variable {O calls fixed} {c : Config ι σ κ ρ} {i j : ι} {schedule early later : List ι}

theorem commits_append :
    commits O calls fixed c (early ++ later) =
      commits O calls fixed c early ++ commits O calls fixed (runs O calls c early) later := by
  induction early generalizing c with
  | nil => rfl
  | cons i rest ih => rw [List.cons_append, commits, commits, ih, runs_cons, List.append_assoc]

theorem fate_tick (points : CommitPoints O fixed) {r : ρ} (before : (c.phase j).fate fixed = some r) :
    ((tick O calls c i).phase j).fate fixed = some r := by
  by_cases same : j = i
  · subst same
    rcases tick_cases O calls c j with stays | ⟨s, outcome, moves, moved⟩
    · rw [stays, before]
    · rw [moved, Config.moved_self]
      cases phase : c.phase j with
      | waiting =>
        rw [phase] at before
        cases before
      | running point =>
        rw [phase] at before moves
        exact points _ _ _ _ _ _ moves before
      | done =>
        rw [phase] at moves
        cases moves
  · rw [tick_phase_ne same, before]

theorem fate_runs (points : CommitPoints O fixed) {r : ρ} (before : (c.phase j).fate fixed = some r) :
    ((runs O calls c schedule).phase j).fate fixed = some r := by
  induction schedule generalizing c with
  | nil => exact before
  | cons i later ih => exact ih (fate_tick points before)

/-- A tick fixes the result of its own call, or none. -/
theorem commit_cases (points : CommitPoints O fixed) (calls : ι → α) (c : Config ι σ κ ρ) (i : ι) :
    (∃ r, commit O calls fixed c i = [i] ∧ (c.phase i).fate fixed = none ∧
        ((tick O calls c i).phase i).fate fixed = some r) ∨
      commit O calls fixed c i = [] ∧
        ((tick O calls c i).phase i).fate fixed = (c.phase i).fate fixed := by
  unfold commit
  cases before : (c.phase i).fate fixed with
  | some r => exact Or.inr ⟨by simp, fate_tick points before⟩
  | none =>
    cases after : ((tick O calls c i).phase i).fate fixed with
    | none => exact Or.inr ⟨by simp, rfl⟩
    | some r => exact Or.inl ⟨r, by simp, rfl, rfl⟩

theorem fate_tick_ne (different : j ≠ i) :
    ((tick O calls c i).phase j).fate fixed = (c.phase j).fate fixed := by rw [tick_phase_ne different]

/-- The calls that take effect in a run are those whose results it fixes. -/
theorem mem_commits (points : CommitPoints O fixed) :
    j ∈ commits O calls fixed c schedule ↔
      (c.phase j).fate fixed = none ∧ (((runs O calls c schedule).phase j).fate fixed).isSome := by
  induction schedule generalizing c with
  | nil =>
    simp only [commits, List.not_mem_nil, runs_nil, false_iff, not_and]
    intro open_
    simp [open_]
  | cons i later ih =>
    rw [commits, List.mem_append, ih, runs_cons]
    rcases commit_cases points calls c i with ⟨r, committed, before, after⟩ | ⟨silent, same⟩
    · rw [committed, List.mem_singleton]
      by_cases here : j = i
      · subst here
        have kept : ((runs O calls (tick O calls c j) later).phase j).fate fixed = some r := fate_runs points after
        simp [before, after, kept]
      · simp only [here, false_or, fate_tick_ne here]
    · rw [silent]
      by_cases here : j = i
      · subst here
        simp only [List.not_mem_nil, false_or, same]
      · simp only [List.not_mem_nil, false_or, fate_tick_ne here]

theorem nodup_commits (points : CommitPoints O fixed) : (commits O calls fixed c schedule).Nodup := by
  induction schedule generalizing c with
  | nil => exact List.nodup_nil
  | cons i later ih =>
    rw [commits]
    rcases commit_cases points calls c i with ⟨r, committed, _, after⟩ | ⟨silent, _⟩
    · rw [committed, List.singleton_append, List.nodup_cons]
      refine ⟨fun again => ?_, ih⟩
      have open_ := ((mem_commits points).mp again).1
      rw [after] at open_
      cases open_
    · rw [silent, List.nil_append]
      exact ih

/-- A call that returns before another begins takes effect before it. -/
theorem commits_realTime (points : CommitPoints O fixed) {s : σ}
    (precedes : Precedes O calls (start s) schedule i j) (effect : j ∈ commits O calls fixed (start s) schedule) :
    [i, j].Sublist (commits O calls fixed (start s) schedule) := by
  obtain ⟨early, later, rfl, finished, unbegun⟩ := precedes
  obtain ⟨r, done⟩ := Phase.exists_of_isDone finished
  have first : i ∈ commits O calls fixed (start s) early :=
    (mem_commits points).mpr ⟨rfl, by rw [done]; rfl⟩
  rw [commits_append] at effect ⊢
  have second : j ∈ commits O calls fixed (runs O calls (start s) early) later := by
    rcases List.mem_append.mp effect with there | here
    · have decided := ((mem_commits points).mp there).2
      rw [unbegun] at decided
      cases decided
    · exact here
  exact (List.singleton_sublist.mpr first).append (List.singleton_sublist.mpr second)

end Commit

section Serial
variable {ι S α ρ : Type} (spec : S → α → S × ρ) (calls : ι → α)

/-- The state after calls made one after the other. -/
def serial (a : S) (order : List ι) : S := order.foldl (fun a i => (spec a (calls i)).1) a

/-- The results of calls made one after the other. -/
def answers (a : S) : List ι → List (ι × ρ)
  | [] => []
  | i :: later => (i, (spec a (calls i)).2) :: answers (spec a (calls i)).1 later

end Serial

section Simulation
variable {ι σ α κ ρ S : Type} [DecidableEq ι] (O : Object σ α κ ρ) (calls : ι → α) (spec : S → α → S × ρ)

/-- A sequential order of all calls of a run that gives every call the
result it had, leaves the same state, and never puts a call before one that
had returned by the time it began. -/
structure Linearizes (view : σ → S) (s : σ) (schedule order : List ι) : Prop where
  nodup : order.Nodup
  whole : ∀ i, i ∈ order
  answered : ∀ i r, (runs O calls (start s) schedule).phase i = .done r ↔ (i, r) ∈ answers spec calls (view s) order
  final : serial spec calls (view s) order = view (runs O calls (start s) schedule).shared
  realTime : ∀ i j, Precedes O calls (start s) schedule i j → [i, j].Sublist order

/-- What a tick does to a relation `R` between the sequential object and the
configuration: the sequential object makes a call in the tick that fixes its
result, and stays where it is in the others. -/
def Keeps (fixed : κ → Option ρ) (R : S → Config ι σ κ ρ → Prop) (a : S) (c : Config ι σ κ ρ) (i : ι) : Prop :=
  ((tick O calls c i).phase i).fate fixed = (c.phase i).fate fixed ∧ R a (tick O calls c i) ∨
    (c.phase i).fate fixed = none ∧ ((tick O calls c i).phase i).fate fixed = some (spec a (calls i)).2 ∧
      R (spec a (calls i)).1 (tick O calls c i)

/-- A relation that every tick keeps. `G` is what the configurations of one
run are known to meet. -/
structure Simulation (fixed : κ → Option ρ) (R : S → Config ι σ κ ρ → Prop) (G : Config ι σ κ ρ → Prop) : Prop where
  points : CommitPoints O fixed
  step : ∀ a c i, R a c → G (tick O calls c i) → Keeps O calls spec fixed R a c i

variable {O calls spec} {fixed : κ → Option ρ} {R : S → Config ι σ κ ρ → Prop} {G : Config ι σ κ ρ → Prop}
  {c : Config ι σ κ ρ} {a : S} {schedule : List ι}

theorem Keeps.wait {i : ι} (related : R a c) (waits : O.move (calls i) (c.phase i) c.shared = none) :
    Keeps O calls spec fixed R a c i := by
  rw [Keeps, tick_of_wait waits]
  exact Or.inl ⟨rfl, related⟩

theorem Keeps.stutter {i : ι} {s : σ} {outcome : κ ⊕ ρ}
    (moves : O.move (calls i) (c.phase i) c.shared = some (s, outcome))
    (same : (Phase.ofSum outcome).fate fixed = (c.phase i).fate fixed)
    (related : R a (c.moved i s (.ofSum outcome))) : Keeps O calls spec fixed R a c i := by
  rw [Keeps, tick_of_move moves, Config.moved_self]
  exact Or.inl ⟨same, related⟩

theorem Keeps.commit {i : ι} {s : σ} {outcome : κ ⊕ ρ} {a' : S} {r : ρ}
    (moves : O.move (calls i) (c.phase i) c.shared = some (s, outcome))
    (undecided : (c.phase i).fate fixed = none) (decided : (Phase.ofSum outcome).fate fixed = some r)
    (answer : spec a (calls i) = (a', r)) (related : R a' (c.moved i s (.ofSum outcome))) :
    Keeps O calls spec fixed R a c i := by
  rw [Keeps, tick_of_move moves, answer, Config.moved_self]
  exact Or.inr ⟨undecided, decided, related⟩

/-- The sequential object in step with a run: it makes the calls in the
order of their effects, and answers them as the run does. -/
theorem Simulation.follow (sim : Simulation O calls spec fixed R G) (related : R a c)
    (guarded : ∀ early later, schedule = early ++ later → G (runs O calls c early)) :
    R (serial spec calls a (commits O calls fixed c schedule)) (runs O calls c schedule) ∧
      ∀ i r, (i, r) ∈ answers spec calls a (commits O calls fixed c schedule) ↔
        (c.phase i).fate fixed = none ∧ ((runs O calls c schedule).phase i).fate fixed = some r := by
  induction schedule generalizing c a with
  | nil =>
    refine ⟨related, fun i r => ?_⟩
    simp only [commits, answers, List.not_mem_nil, runs_nil, false_iff, not_and]
    intro open_
    simp [open_]
  | cons i later ih =>
    have here : G (tick O calls c i) := guarded [i] later rfl
    have rest : ∀ early after, later = early ++ after → G (runs O calls (tick O calls c i) early) :=
      fun early after split => guarded (i :: early) after (by rw [split, List.cons_append])
    rw [commits, runs_cons]
    rcases commit_cases sim.points calls c i with ⟨r, committed, before, after⟩ | ⟨silent, same⟩
    · rcases sim.step a c i related here with ⟨unchanged, _⟩ | ⟨_, answer, related'⟩
      · rw [after, before] at unchanged
        cases unchanged
      obtain ⟨follows, answered⟩ := ih related' rest
      rw [committed, List.singleton_append]
      refine ⟨follows, fun j r' => ?_⟩
      rw [answers, List.mem_cons, answered]
      by_cases own : j = i
      · subst own
        have kept : ((runs O calls (tick O calls c j) later).phase j).fate fixed = some (spec a (calls j)).2 :=
          fate_runs sim.points answer
        simp [before, answer, kept, eq_comm]
      · simp only [Prod.mk.injEq, own, false_and, false_or, fate_tick_ne own]
    · have related' : R a (tick O calls c i) := by
        rcases sim.step a c i related here with ⟨_, related'⟩ | ⟨open_, answer, _⟩
        · exact related'
        · rw [answer, open_] at same
          cases same
      obtain ⟨follows, answered⟩ := ih related' rest
      rw [silent, List.nil_append]
      refine ⟨follows, fun j r' => ?_⟩
      rw [answered]
      by_cases own : j = i
      · subst own
        rw [same]
      · rw [fate_tick_ne own]

/-- The commit points give a linearization of every complete run. -/
theorem Simulation.linearizes (sim : Simulation O calls spec fixed R G) {view : σ → S} {s : σ}
    (begin_ : R (view s) (start s))
    (guarded : ∀ early later, schedule = early ++ later → G (runs O calls (start s) early))
    (complete : ∀ i, ((runs O calls (start s) schedule).phase i).isDone = true)
    (rest : ∀ a c, R a c → (∀ i, (c.phase i).isDone = true) → a = view c.shared) :
    Linearizes O calls spec view s schedule (commits O calls fixed (start s) schedule) := by
  obtain ⟨follows, answered⟩ := sim.follow begin_ guarded
  have whole : ∀ i, i ∈ commits O calls fixed (start s) schedule := by
    intro i
    obtain ⟨r, done⟩ := Phase.exists_of_isDone (complete i)
    exact (mem_commits sim.points).mpr ⟨rfl, by rw [done]; rfl⟩
  constructor
  case nodup => exact nodup_commits sim.points
  case whole => exact whole
  case answered =>
    intro i r
    rw [answered]
    obtain ⟨r', done⟩ := Phase.exists_of_isDone (complete i)
    rw [done]
    constructor
    · intro same
      cases same
      exact ⟨rfl, rfl⟩
    · rintro ⟨_, same⟩
      cases same
      rfl
  case final => exact rest _ _ follows complete
  case realTime => exact fun i j precedes => commits_realTime sim.points precedes (whole j)

end Simulation
section Weight
variable {ι σ α κ ρ : Type} [Fintype ι]

/-- A quantity that each call has by how far it has got, added up. -/
def weight (w : ι → Phase κ ρ → Nat) (c : Config ι σ κ ρ) : Nat := ∑ i, w i (c.phase i)

variable [DecidableEq ι] {O : Object σ α κ ρ} {calls : ι → α} {w : ι → Phase κ ρ → Nat} {c : Config ι σ κ ρ}

theorem weight_moved (w : ι → Phase κ ρ → Nat) (c : Config ι σ κ ρ) (i : ι) (s : σ) (phase : Phase κ ρ) :
    weight w (c.moved i s phase) + w i (c.phase i) = weight w c + w i phase := by
  have others : ∑ j ∈ Finset.univ.erase i, w j ((c.moved i s phase).phase j) =
      ∑ j ∈ Finset.univ.erase i, w j (c.phase j) :=
    Finset.sum_congr rfl fun j member => by rw [Config.moved_ne _ _ _ _ (Finset.ne_of_mem_erase member)]
  have before := Finset.add_sum_erase Finset.univ (fun j => w j (c.phase j)) (Finset.mem_univ i)
  have after := Finset.add_sum_erase Finset.univ (fun j => w j ((c.moved i s phase).phase j)) (Finset.mem_univ i)
  simp only [others, Config.moved_self] at after
  simp only [weight]
  omega

/-- What only calls that have returned have does not shrink. -/
theorem weight_le_runs (returned : ∀ i phase, phase.isDone = false → w i phase = 0) (schedule : List ι) :
    weight w c ≤ weight w (runs O calls c schedule) := by
  refine Finset.sum_le_sum fun i _ => ?_
  cases phase : c.phase i with
  | done r => rw [runs_done phase]
  | waiting | running =>
    rw [returned i _ rfl]
    exact Nat.zero_le _

end Weight
end Linearization
