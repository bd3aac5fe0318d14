import SecureExchange.Library.Linearization

namespace Linearization
variable {ι σ α κ ρ : Type} [DecidableEq ι] {O : Object σ α κ ρ} {calls : ι → α}

/-- Why concurrent calls come to an end: each step leaves less to do, and
while an invariant holds and some call has not returned, some call can go on. -/
structure Progress (O : Object σ α κ ρ) (calls : ι → α) (I : Config ι σ κ ρ → Prop)
    (rank : Phase κ ρ → Nat) : Prop where
  keeps : ∀ c i, I c → I (tick O calls c i)
  falls : ∀ call phase s s' outcome, O.move call phase s = some (s', outcome) →
    rank (.ofSum outcome) < rank phase
  able : ∀ c, I c → (∃ i, (c.phase i).isDone = false) → ∃ i, O.move (calls i) (c.phase i) c.shared ≠ none

variable {I : Config ι σ κ ρ → Prop} {rank : Phase κ ρ → Nat} {c : Config ι σ κ ρ} {i : ι}
  {schedule : List ι} {rounds : List (List ι)}

theorem Progress.keeps_run (progress : Progress O calls I rank) (holds : I c) (schedule : List ι) :
    I (runs O calls c schedule) := by
  induction schedule generalizing c with
  | nil => exact holds
  | cons i later ih => exact ih (progress.keeps c i holds)

variable [Fintype ι]

/-- What is left to do for all calls together. -/
def left (rank : Phase κ ρ → Nat) (c : Config ι σ κ ρ) : Nat := weight (fun _ => rank) c

theorem Progress.left_tick (progress : Progress O calls I rank)
    (able : O.move (calls i) (c.phase i) c.shared ≠ none) : left rank (tick O calls c i) < left rank c := by
  obtain ⟨⟨s, outcome⟩, moves⟩ := Option.ne_none_iff_exists'.mp able
  have falls := progress.falls _ _ _ _ _ moves
  have change := weight_moved (fun _ => rank) c i s (.ofSum outcome)
  rw [tick_of_move moves, left, left]
  omega

theorem Progress.left_tick_le (progress : Progress O calls I rank) (c : Config ι σ κ ρ) (i : ι) :
    left rank (tick O calls c i) ≤ left rank c := by
  cases moves : O.move (calls i) (c.phase i) c.shared with
  | none => rw [tick_of_wait moves]
  | some step => exact (progress.left_tick (by simp [moves])).le

theorem Progress.left_runs_le (progress : Progress O calls I rank) (c : Config ι σ κ ρ) (schedule : List ι) :
    left rank (runs O calls c schedule) ≤ left rank c := by
  induction schedule generalizing c with
  | nil => exact le_rfl
  | cons i later ih => exact (ih _).trans (progress.left_tick_le c i)

/-- While a call that can go on has its turn later in a schedule, the
schedule gets something done. -/
theorem Progress.left_runs_lt (progress : Progress O calls I rank)
    (able : O.move (calls i) (c.phase i) c.shared ≠ none) (turn : i ∈ schedule) :
    left rank (runs O calls c schedule) < left rank c := by
  induction schedule generalizing c with
  | nil => cases turn
  | cons j later ih =>
    rw [runs_cons]
    cases moves : O.move (calls j) (c.phase j) c.shared with
    | some step =>
      have less := progress.left_tick (c := c) (i := j) (by simp [moves])
      exact (progress.left_runs_le _ later).trans_lt less
    | none =>
      rw [tick_of_wait moves]
      rcases List.mem_cons.mp turn with rfl | rest
      · exact absurd moves able
      · exact ih able rest

/-- The steps that a schedule really takes. -/
def stepsIn (O : Object σ α κ ρ) (calls : ι → α) (c : Config ι σ κ ρ) : List ι → Nat
  | [] => 0
  | i :: later => (if (O.move (calls i) (c.phase i) c.shared).isSome then 1 else 0) +
    stepsIn O calls (tick O calls c i) later

theorem Progress.stepsIn_le (progress : Progress O calls I rank) (c : Config ι σ κ ρ) (schedule : List ι) :
    stepsIn O calls c schedule + left rank (runs O calls c schedule) ≤ left rank c := by
  induction schedule generalizing c with
  | nil => exact (Nat.zero_add _).le
  | cons i later ih =>
    have rest := ih (tick O calls c i)
    rw [stepsIn, runs_cons]
    cases moves : O.move (calls i) (c.phase i) c.shared with
    | none =>
      have stays := progress.left_tick_le c i
      simp only [Option.isSome_none, Bool.false_eq_true, if_false]
      omega
    | some step =>
      have less := progress.left_tick (c := c) (i := i) (by simp [moves])
      simp only [Option.isSome_some, if_true]
      omega

/-- Rounds in which every call gets a turn finish all calls, as many rounds
as there are steps left. -/
theorem Progress.completes (progress : Progress O calls I rank) (holds : I c)
    (fair : ∀ round ∈ rounds, ∀ i, i ∈ round) (enough : left rank c ≤ rounds.length) (i : ι) :
    ((runs O calls c rounds.flatten).phase i).isDone = true := by
  induction rounds generalizing c with
  | nil =>
    by_contra unfinished
    obtain ⟨j, able⟩ := progress.able c holds ⟨i, by simpa using unfinished⟩
    have less := progress.left_tick able
    rw [List.length_nil] at enough
    omega
  | cons round later ih =>
    rw [List.forall_mem_cons] at fair
    rw [List.length_cons] at enough
    by_cases unfinished : ∃ j, (c.phase j).isDone = false
    · obtain ⟨j, able⟩ := progress.able c holds unfinished
      have less := progress.left_runs_lt able (fair.1 j)
      rw [List.flatten_cons, runs_append]
      exact ih (progress.keeps_run holds round) fair.2 (by omega)
    · have returned : (c.phase i).isDone = true := by
        by_contra running
        exact unfinished ⟨i, by simpa using running⟩
      obtain ⟨r, done⟩ := Phase.exists_of_isDone returned
      rw [runs_done done]
      rfl

end Linearization
