import SecureExchange.Library.Interleaving

namespace Reactive

/-- A machine that stops where an input does not fit its state, next to one
that goes on there. Elsewhere the two do the same. -/
structure Checks {σ ι ω : Type*} (checked plain : Machine σ ι ω) (fits : σ → ι → Prop) : Prop where
  agrees : ∀ s i, fits s i → checked s i = plain s i
  stops : ∀ s i, ¬ fits s i → (checked s i).halted = true
  live : ∀ s i, (plain s i).halted = false

section Runs
variable {σ ι ω : Type*} {checked plain : Machine σ ι ω} {s : σ} {inputs : List ι}

/-- Machines that agree on the steps of one of them take the same run. -/
theorem run_congr (agree : ∀ st ∈ steps plain s inputs, checked st.before st.input = plain st.before st.input) :
    run checked s inputs = run plain s inputs := by
  induction inputs generalizing s with
  | nil => rfl
  | cons i rest ih =>
    have here : checked s i = plain s i := agree ⟨s, i, plain s i⟩ (by simp [steps])
    cases live : (plain s i).halted with
    | true => rw [run_cons_halted live, run_cons_halted (here ▸ live), here]
    | false =>
      rw [steps_cons_live live] at agree
      have tail := ih fun st member => agree st (List.mem_cons_of_mem _ member)
      rw [run_cons_live live, run_cons_live (here ▸ live), here, tail]

variable {fits : σ → ι → Prop} (checks : Checks checked plain fits)
include checks

theorem Checks.run_eq (fit : ∀ st ∈ steps plain s inputs, fits st.before st.input) :
    run checked s inputs = run plain s inputs :=
  run_congr fun st member => checks.agrees _ _ (fit st member)

/-- The checked run reaches its end just when every input of the plain run fits. -/
theorem Checks.live_iff :
    (run checked s inputs).halted = false ↔ ∀ st ∈ steps plain s inputs, fits st.before st.input := by
  constructor
  · intro live
    induction inputs generalizing s with
    | nil => intro st member; cases member
    | cons i rest ih =>
      have fit : fits s i := by
        by_contra unfit
        have halted := checks.stops s i unfit
        rw [run_cons_halted halted, halted] at live
        cases live
      have here := checks.agrees s i fit
      rw [run_cons_live (here ▸ checks.live s i), here] at live
      rw [steps_cons_live (checks.live s i), List.forall_mem_cons]
      exact ⟨fit, ih live⟩
  · intro fit
    rw [checks.run_eq fit]
    exact run_live checks.live s inputs

end Runs

section Systems
variable {ι σ κ ω ε α : Type} [DecidableEq ι] {checked plain : Machine σ κ ω} {fits : σ → κ → Prop}
  {schedule : Schedule ι κ ω ε α} {s : System ι σ ε} {actions : List α}

/-- The input that an action gives a part fits the state of the part. -/
def MoveFits (fits : σ → κ → Prop) (schedule : Schedule ι κ ω ε α) (s : System ι σ ε) (a : α) : Prop :=
  ∀ turn ∈ move schedule s a, fits (s.parts turn.1) turn.2

/-- A part that is down stays down. -/
theorem down_run (react : Machine σ κ ω) (schedule : Schedule ι κ ω ε α) (s : System ι σ ε) (actions : List α) :
    s.down ⊆ (run (interleave react schedule) s actions).state.down :=
  fun _ down => (part_of_down react schedule actions down).2.1

/-- What one action does to the set of parts that are down. -/
theorem down_interleave {react : Machine σ κ ω} {a : α} :
    (interleave react schedule s a).state.down = s.down ↔
      ∀ turn ∈ move schedule s a, (react (s.parts turn.1) turn.2).halted = false := by
  cases moves : move schedule s a with
  | none => simp [interleave_idle moves, Reaction.stay]
  | some turn =>
    obtain ⟨i, k⟩ := turn
    have up := (move_spec moves).2
    rw [interleave_move moves]
    cases halts : (react (s.parts i) k).halted with
    | true => simp [halts, up]
    | false => simp [halts]

/-- What is not down at the end of a run was not down after its first action. -/
theorem down_first {react : Machine σ κ ω} {a : α}
    (same : (run (interleave react schedule) s (a :: actions)).state.down = s.down) :
    (interleave react schedule s a).state.down = s.down := by
  rw [run_interleave_cons] at same
  refine Finset.Subset.antisymm ?_ ?_
  · exact same ▸ down_run ..
  · have once := down_run react schedule s [a]
    rwa [run_interleave_cons] at once

/-- Parts that never halt stay up. -/
theorem down_run_of_live {react : Machine σ κ ω} (never : ∀ s k, (react s k).halted = false)
    (schedule : Schedule ι κ ω ε α) (s : System ι σ ε) (actions : List α) :
    (run (interleave react schedule) s actions).state.down = s.down := by
  induction actions generalizing s with
  | nil => rfl
  | cons a rest ih =>
    rw [run_interleave_cons]
    exact (ih _).trans (down_interleave.mpr fun turn _ => never _ _)

variable (checks : Checks checked plain fits)
include checks

theorem Checks.interleave_eq {a : α} (fit : MoveFits fits schedule s a) :
    interleave checked schedule s a = interleave plain schedule s a := by
  cases moves : move schedule s a with
  | none => rw [interleave_idle moves, interleave_idle moves]
  | some turn =>
    obtain ⟨i, k⟩ := turn
    rw [interleave_move moves, interleave_move moves, checks.agrees _ _ (fit (i, k) moves)]

/-- No further part of the checked system goes down just when everything
that the plain system does fits, and then the two take the same run. -/
theorem Checks.down_iff :
    (run (interleave checked schedule) s actions).state.down = s.down ↔
      ∀ st ∈ steps (interleave plain schedule) s actions, MoveFits fits schedule st.before st.input := by
  induction actions generalizing s with
  | nil => simp [Reaction.stay]
  | cons a rest ih =>
    rw [run_interleave_cons, steps_interleave_cons, List.forall_mem_cons]
    by_cases fit : MoveFits fits schedule s a
    · have same := checks.interleave_eq fit
      have stays : (interleave plain schedule s a).state.down = s.down :=
        down_interleave.mpr fun turn _ => checks.live _ _
      have later := ih (s := (interleave plain schedule s a).state)
      rw [same]
      rw [stays] at later
      exact ⟨fun down => ⟨fit, later.mp down⟩, fun all => later.mpr all.2⟩
    · refine ⟨fun down => absurd ?_ fit, fun all => absurd all.1 fit⟩
      have whole : (run (interleave checked schedule) s (a :: rest)).state.down = s.down := by
        rw [run_interleave_cons]
        exact down
      have still := down_interleave.mp (down_first whole)
      intro turn moves
      by_contra unfit
      have halted := checks.stops _ _ unfit
      rw [still turn moves] at halted
      cases halted

theorem Checks.system_eq
    (fit : ∀ st ∈ steps (interleave plain schedule) s actions, MoveFits fits schedule st.before st.input) :
    run (interleave checked schedule) s actions = run (interleave plain schedule) s actions :=
  run_congr fun st member => checks.interleave_eq (fit st member)

end Systems
end Reactive
