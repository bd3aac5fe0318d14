import Mathlib.Algebra.BigOperators.Group.Finset.Piecewise
import SecureExchange.Library.Reactive

namespace Reactive

/-- Parts that each run a machine of their own, with something shared, such
as the messages under way. A part that halted is down. -/
structure System (ι σ ε : Type) where
  parts : ι → σ
  down : Finset ι
  shared : ε

/-- Which part an action moves, on what input, and what its output does to
the shared state. An action without a turn is not enabled. -/
structure Schedule (ι κ ω ε α : Type) where
  turn : ε → α → Option (ι × κ)
  after : ε → α → ι → List ω → ε

section Interleaving
variable {ι σ κ ω ε α : Type} [DecidableEq ι] (react : Machine σ κ ω) (schedule : Schedule ι κ ω ε α)

/-- The part and the input of the next move, if the part is up. -/
def move (s : System ι σ ε) (a : α) : Option (ι × κ) :=
  match schedule.turn s.shared a with
  | none => none
  | some (i, k) => if i ∈ s.down then none else some (i, k)

/-- One action of the whole system: at most one part moves. -/
def interleave : Machine (System ι σ ε) α (ι × ω) := fun s a =>
  match move schedule s a with
  | none => .stay s
  | some (i, k) =>
    let r := react (s.parts i) k
    { state := {
        parts := Function.update s.parts i r.state
        down := if r.halted then insert i s.down else s.down
        shared := schedule.after s.shared a i r.output }
      output := r.output.map fun e => (i, e)
      halted := false }

/-- What one part was given in some steps of the system. -/
def inputsOf (i : ι) (sts : List (Step (System ι σ ε) α (ι × ω))) : List κ :=
  sts.filterMap fun st =>
    match move schedule st.before st.input with
    | none => none
    | some (j, k) => if j = i then some k else none

/-- What one part emitted. -/
def outputOf (i : ι) (past : List (ι × ω)) : List ω :=
  past.filterMap fun e => if e.1 = i then some e.2 else none

variable {react schedule} {s : System ι σ ε} {a : α} {i j : ι} {k : κ} {actions : List α}

@[simp] theorem outputOf_append (i : ι) (left right : List (ι × ω)) :
    outputOf i (left ++ right) = outputOf i left ++ outputOf i right := List.filterMap_append

theorem outputOf_own (i : ι) (effects : List ω) : outputOf i (effects.map fun e => (i, e)) = effects := by
  simp [outputOf]

theorem outputOf_other (different : j ≠ i) (effects : List ω) :
    outputOf i (effects.map fun e => (j, e)) = [] := by
  refine List.filterMap_eq_nil_iff.mpr fun e member => ?_
  obtain ⟨_, _, rfl⟩ := List.mem_map.mp member
  exact if_neg different

theorem mem_outputOf {past : List (ι × ω)} {e : ω} : e ∈ outputOf i past ↔ (i, e) ∈ past := by
  rw [outputOf, List.mem_filterMap]
  constructor
  · rintro ⟨⟨j, found⟩, member, value⟩
    by_cases same : j = i
    · simp only [same, if_true, Option.some.injEq] at value
      rw [← same, ← value] at *
      exact member
    · simp only [same, if_false] at value
      cases value
  · intro member
    exact ⟨_, member, if_pos rfl⟩

theorem interleave_idle (idle : move schedule s a = none) : interleave react schedule s a = .stay s := by
  simp only [interleave, idle]

theorem interleave_move (moves : move schedule s a = some (i, k)) :
    interleave react schedule s a =
      ⟨⟨Function.update s.parts i (react (s.parts i) k).state,
          if (react (s.parts i) k).halted then insert i s.down else s.down,
          schedule.after s.shared a i (react (s.parts i) k).output⟩,
        (react (s.parts i) k).output.map fun e => (i, e), false⟩ := by
  simp only [interleave, moves]

theorem move_spec (moves : move schedule s a = some (i, k)) :
    schedule.turn s.shared a = some (i, k) ∧ i ∉ s.down := by
  unfold move at moves
  split at moves
  · cases moves
  · rename_i turn
    split at moves
    · cases moves
    · rename_i up
      cases moves
      exact ⟨turn, up⟩

/-- The system as a whole never halts. -/
theorem interleave_live (s : System ι σ ε) (a : α) : (interleave react schedule s a).halted = false := by
  cases moves : move schedule s a with
  | none => rw [interleave_idle moves]; rfl
  | some turn => rw [interleave_move moves]

theorem run_interleave_live (s : System ι σ ε) (actions : List α) :
    (run (interleave react schedule) s actions).halted = false :=
  run_live interleave_live s actions

theorem run_interleave_cons :
    run (interleave react schedule) s (a :: actions) =
      ⟨(run (interleave react schedule) (interleave react schedule s a).state actions).state,
        (interleave react schedule s a).output ++
          (run (interleave react schedule) (interleave react schedule s a).state actions).output, false⟩ := by
  rw [run_cons_live (interleave_live s a), run_interleave_live]

theorem steps_interleave_cons :
    steps (interleave react schedule) s (a :: actions) =
      ⟨s, a, interleave react schedule s a⟩ ::
        steps (interleave react schedule) (interleave react schedule s a).state actions :=
  steps_cons_live (interleave_live s a)

variable (react) in
/-- An action that does not move a part leaves it as it is. -/
theorem interleave_other (still : ∀ k, move schedule s a ≠ some (i, k)) :
    (interleave react schedule s a).state.parts i = s.parts i ∧
      (i ∈ (interleave react schedule s a).state.down ↔ i ∈ s.down) ∧
      outputOf i (interleave react schedule s a).output = [] := by
  cases moves : move schedule s a with
  | none =>
    rw [interleave_idle moves]
    exact ⟨rfl, Iff.rfl, rfl⟩
  | some turn =>
    obtain ⟨j, k⟩ := turn
    have different : j ≠ i := fun same => still k (by rw [moves, same])
    rw [interleave_move moves]
    refine ⟨Function.update_of_ne different.symm _ _, ?_, outputOf_other different _⟩
    dsimp only
    split
    · simp [different.symm]
    · exact Iff.rfl

variable (react) in
/-- An action that moves a part does to it what its own machine does. -/
theorem interleave_own (moves : move schedule s a = some (i, k)) :
    (interleave react schedule s a).state.parts i = (react (s.parts i) k).state ∧
      (i ∈ (interleave react schedule s a).state.down ↔ (react (s.parts i) k).halted = true) ∧
      outputOf i (interleave react schedule s a).output = (react (s.parts i) k).output := by
  have up := (move_spec moves).2
  rw [interleave_move moves]
  refine ⟨Function.update_self .., ?_, outputOf_own i _⟩
  cases halts : (react (s.parts i) k).halted with
  | true => simp
  | false => simp [up]

theorem inputsOf_cons_other {st : Step (System ι σ ε) α (ι × ω)} {sts : List (Step (System ι σ ε) α (ι × ω))}
    (still : ∀ k, move schedule st.before st.input ≠ some (i, k)) :
    inputsOf schedule i (st :: sts) = inputsOf schedule i sts := by
  refine List.filterMap_cons_none ?_
  cases moves : move schedule st.before st.input with
  | none => rfl
  | some turn => exact if_neg fun same => still turn.2 (by rw [moves, ← same])

theorem inputsOf_cons_move {st : Step (System ι σ ε) α (ι × ω)} {sts : List (Step (System ι σ ε) α (ι × ω))}
    (moves : move schedule st.before st.input = some (i, k)) :
    inputsOf schedule i (st :: sts) = k :: inputsOf schedule i sts := by
  refine List.filterMap_cons_some ?_
  simp only [moves, if_true]

variable (react schedule actions) in
/-- A part that is down takes no part in anything any more. -/
theorem part_of_down (down : i ∈ s.down) :
    (run (interleave react schedule) s actions).state.parts i = s.parts i ∧
      i ∈ (run (interleave react schedule) s actions).state.down ∧
      outputOf i (run (interleave react schedule) s actions).output = [] ∧
      inputsOf schedule i (steps (interleave react schedule) s actions) = [] := by
  induction actions generalizing s with
  | nil => exact ⟨rfl, down, rfl, rfl⟩
  | cons a rest ih =>
    have still : ∀ k, move schedule s a ≠ some (i, k) := fun k moves => (move_spec moves).2 down
    obtain ⟨part, stays, silent⟩ := interleave_other react still
    obtain ⟨later, downLater, silentLater, idleLater⟩ := ih (stays.mpr down)
    rw [run_interleave_cons, steps_interleave_cons, inputsOf_cons_other still]
    refine ⟨later.trans part, downLater, ?_, idleLater⟩
    rw [outputOf_append, silent, silentLater]
    rfl

/-- What a part does in a run of the system is a run of the part alone on
the inputs it was given. -/
theorem run_part (up : i ∉ s.down) :
    run react (s.parts i) (inputsOf schedule i (steps (interleave react schedule) s actions)) =
      ⟨(run (interleave react schedule) s actions).state.parts i,
        outputOf i (run (interleave react schedule) s actions).output,
        decide (i ∈ (run (interleave react schedule) s actions).state.down)⟩ := by
  induction actions generalizing s with
  | nil =>
    have live : decide (i ∈ s.down) = false := decide_eq_false up
    change Reaction.mk (s.parts i) [] false = ⟨s.parts i, [], decide (i ∈ s.down)⟩
    rw [live]
  | cons a rest ih =>
    by_cases moves : ∃ k, move schedule s a = some (i, k)
    · obtain ⟨k, moves⟩ := moves
      obtain ⟨part, halts, output⟩ := interleave_own react moves
      rw [run_interleave_cons, steps_interleave_cons, inputsOf_cons_move moves, outputOf_append, output]
      by_cases down : i ∈ (interleave react schedule s a).state.down
      · obtain ⟨stays, stillDown, silent, idle⟩ := part_of_down react schedule rest down
        rw [run_cons_halted (halts.mp down), stays, silent, decide_eq_true stillDown, part, List.append_nil,
          ← halts.mp down]
      · have live : (react (s.parts i) k).halted = false := Bool.eq_false_iff.mpr fun on => down (halts.mpr on)
        have later := ih down
        rw [part] at later
        rw [run_cons_live live, later]
    · have still : ∀ k, move schedule s a ≠ some (i, k) := fun k found => moves ⟨k, found⟩
      obtain ⟨part, stays, silent⟩ := interleave_other react still
      have later := ih (fun down => up (stays.mp down))
      rw [run_interleave_cons, steps_interleave_cons, inputsOf_cons_other still, outputOf_append, silent]
      rw [part] at later
      exact later

/-- Every step of a part's own run is a move of the part in the system. -/
theorem steps_part (up : i ∉ s.down) {st : Step σ κ ω}
    (member : st ∈ steps react (s.parts i)
      (inputsOf schedule i (steps (interleave react schedule) s actions))) :
    ∃ whole ∈ steps (interleave react schedule) s actions,
      move schedule whole.before whole.input = some (i, st.input) ∧ st.before = whole.before.parts i := by
  induction actions generalizing s with
  | nil => cases member
  | cons a rest ih =>
    rw [steps_interleave_cons] at member ⊢
    by_cases moves : ∃ k, move schedule s a = some (i, k)
    · obtain ⟨k, moves⟩ := moves
      rw [inputsOf_cons_move moves] at member
      obtain ⟨part, halts, _⟩ := interleave_own react moves
      by_cases down : i ∈ (interleave react schedule s a).state.down
      · rw [steps_cons_halted (halts.mp down), List.mem_singleton] at member
        subst member
        exact ⟨_, List.mem_cons_self .., moves, rfl⟩
      · have live : (react (s.parts i) k).halted = false := Bool.eq_false_iff.mpr fun on => down (halts.mpr on)
        rw [steps_cons_live live] at member
        rcases List.mem_cons.mp member with rfl | later
        · exact ⟨_, List.mem_cons_self .., moves, rfl⟩
        · rw [← part] at later
          obtain ⟨whole, among, found⟩ := ih down later
          exact ⟨whole, List.mem_cons_of_mem _ among, found⟩
    · have still : ∀ k, move schedule s a ≠ some (i, k) := fun k found => moves ⟨k, found⟩
      obtain ⟨part, stays, _⟩ := interleave_other react still
      rw [inputsOf_cons_other still, ← part] at member
      obtain ⟨whole, among, found⟩ := ih (fun down => up (stays.mp down)) member
      exact ⟨whole, List.mem_cons_of_mem _ among, found⟩

/-- What is counted over all output is made up of what the parts emitted. -/
theorem sum_outputOf [Fintype ι] {F : List ω → Nat} (empty : F [] = 0)
    (joins : ∀ left right, F (left ++ right) = F left + F right) (past : List (ι × ω)) :
    F (past.map Prod.snd) = ∑ i, F (outputOf i past) := by
  induction past with
  | nil => simp [outputOf, empty]
  | cons entry rest ih =>
    obtain ⟨i, e⟩ := entry
    have split : ∀ j, F (outputOf j ((i, e) :: rest)) = (if j = i then F [e] else 0) + F (outputOf j rest) := by
      intro j
      rw [← List.singleton_append, outputOf_append, joins]
      by_cases same : j = i
      · have all : outputOf i [(i, e)] = [e] := outputOf_own i [e]
        rw [if_pos same, same, all]
      · have nothing : outputOf j [(i, e)] = [] := outputOf_other (Ne.symm same) [e]
        rw [if_neg same, nothing, empty]
    have first : F (e :: rest.map Prod.snd) = F [e] + F (rest.map Prod.snd) := joins [e] _
    simp only [List.map_cons, first, split, Finset.sum_add_distrib, Finset.sum_ite_eq', Finset.mem_univ, if_true, ih]

/-- A quantity summed over all parts changes with a move by as much as it
does for the part that moved. -/
theorem sum_parts_update [Fintype ι] (f : σ → Nat) (parts : ι → σ) (i : ι) (s : σ) :
    (∑ j, f (Function.update parts i s j)) + f (parts i) = (∑ j, f (parts j)) + f s := by
  have rest : ∑ j ∈ Finset.univ.erase i, f (Function.update parts i s j) =
      ∑ j ∈ Finset.univ.erase i, f (parts j) :=
    Finset.sum_congr rfl fun j member => by rw [Function.update_of_ne (Finset.ne_of_mem_erase member)]
  rw [← Finset.add_sum_erase _ _ (Finset.mem_univ i), rest, Function.update_self,
    ← Finset.add_sum_erase _ (fun j => f (parts j)) (Finset.mem_univ i)]
  omega

end Interleaving
end Reactive
