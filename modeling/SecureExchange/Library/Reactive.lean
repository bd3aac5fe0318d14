import Mathlib.Data.List.Induction

namespace Reactive

universe u v w

/-- What one input does to a reactive machine: the state it leaves, what it
emits in order, and whether the machine stops there for good. -/
structure Reaction (σ : Type u) (ω : Type v) where
  state : σ
  output : List ω
  halted : Bool

/-- The reaction that changes nothing and emits nothing. -/
def Reaction.stay {σ : Type u} {ω : Type v} (s : σ) : Reaction σ ω := ⟨s, [], false⟩

/-- A machine whose answer to an input depends on its state alone. -/
abbrev Machine (σ : Type u) (ι : Type w) (ω : Type v) := σ → ι → Reaction σ ω

/-- One input of a run, with the state it found and the answer it got. -/
structure Step (σ : Type u) (ι : Type w) (ω : Type v) where
  before : σ
  input : ι
  reaction : Reaction σ ω

section Runs
variable {σ : Type u} {ι : Type w} {ω : Type v} (react : Machine σ ι ω)

/-- The inputs one after the other. A halted machine reads no more of them. -/
def run : σ → List ι → Reaction σ ω
  | s, [] => .stay s
  | s, i :: rest =>
    let first := react s i
    if first.halted then first
    else ⟨(run first.state rest).state, first.output ++ (run first.state rest).output,
      (run first.state rest).halted⟩

/-- The steps that a run really takes. -/
def steps : σ → List ι → List (Step σ ι ω)
  | _, [] => []
  | s, i :: rest =>
    ⟨s, i, react s i⟩ :: if (react s i).halted then [] else steps (react s i).state rest

variable {react} {s : σ} {i : ι} {inputs more : List ι}

@[simp] theorem run_nil : run react s [] = .stay s := rfl

@[simp] theorem steps_nil : steps react s [] = [] := rfl

theorem run_cons_halted (halted : (react s i).halted = true) :
    run react s (i :: inputs) = react s i := by
  simp only [run, halted, if_true]

theorem run_cons_live (live : (react s i).halted = false) :
    run react s (i :: inputs) =
      ⟨(run react (react s i).state inputs).state,
        (react s i).output ++ (run react (react s i).state inputs).output,
        (run react (react s i).state inputs).halted⟩ := by
  simp only [run, live, Bool.false_eq_true, if_false]

theorem steps_cons_halted (halted : (react s i).halted = true) :
    steps react s (i :: inputs) = [⟨s, i, react s i⟩] := by
  simp only [steps, halted, if_true]

theorem steps_cons_live (live : (react s i).halted = false) :
    steps react s (i :: inputs) = ⟨s, i, react s i⟩ :: steps react (react s i).state inputs := by
  simp only [steps, live, Bool.false_eq_true, if_false]

/-- A run emits what its steps emit. -/
theorem run_output (s : σ) (inputs : List ι) :
    (run react s inputs).output = (steps react s inputs).flatMap fun st => st.reaction.output := by
  induction inputs generalizing s with
  | nil => rfl
  | cons i rest ih =>
    cases live : (react s i).halted with
    | true => simp [run_cons_halted live, steps_cons_halted live]
    | false => simp [run_cons_live live, steps_cons_live live, ih]

/-- A machine that no input halts is not halted by a run. -/
theorem run_live (never : ∀ s i, (react s i).halted = false) (s : σ) (inputs : List ι) :
    (run react s inputs).halted = false := by
  induction inputs generalizing s with
  | nil => rfl
  | cons i rest ih =>
    rw [run_cons_live (never s i)]
    exact ih _

theorem run_append (live : (run react s inputs).halted = false) :
    run react s (inputs ++ more) =
      ⟨(run react (run react s inputs).state more).state,
        (run react s inputs).output ++ (run react (run react s inputs).state more).output,
        (run react (run react s inputs).state more).halted⟩ := by
  induction inputs generalizing s with
  | nil => rfl
  | cons i rest ih =>
    cases first : (react s i).halted with
    | true => rw [run_cons_halted first] at live; rw [first] at live; cases live
    | false =>
      rw [run_cons_live first] at live
      rw [List.cons_append, run_cons_live first, ih live, run_cons_live first]
      simp only [List.append_assoc]

/-- A run that is still going was never halted before. -/
theorem run_live_of_append (live : (run react s (inputs ++ more)).halted = false) :
    (run react s inputs).halted = false := by
  induction inputs generalizing s with
  | nil => rfl
  | cons i rest ih =>
    rw [List.cons_append] at live
    cases first : (react s i).halted with
    | true => rw [run_cons_halted first, first] at live; cases live
    | false =>
      rw [run_cons_live first] at live ⊢
      exact ih live

theorem length_output_le (once : ∀ s i, (react s i).output.length ≤ 1) (s : σ) (inputs : List ι) :
    (run react s inputs).output.length ≤ inputs.length := by
  induction inputs generalizing s with
  | nil => exact Nat.le_refl 0
  | cons i rest ih =>
    have here := once s i
    have there := ih (react s i).state
    cases first : (react s i).halted with
    | true =>
      rw [run_cons_halted first, List.length_cons]
      omega
    | false =>
      rw [run_cons_live first, List.length_append, List.length_cons]
      omega

/-- A run is halted by one of its steps only. -/
theorem run_live_of_steps (live : ∀ st ∈ steps react s inputs, st.reaction.halted = false) :
    (run react s inputs).halted = false := by
  induction inputs generalizing s with
  | nil => rfl
  | cons i rest ih =>
    have first : (react s i).halted = false := live ⟨s, i, react s i⟩ (by simp [steps])
    rw [steps_cons_live first] at live
    rw [run_cons_live first]
    exact ih fun st member => live st (List.mem_cons_of_mem _ member)

/-- A step of a run answers its own input from its own state. -/
theorem reaction_of_mem_steps {st : Step σ ι ω} (member : st ∈ steps react s inputs) :
    st.reaction = react st.before st.input := by
  induction inputs generalizing s with
  | nil => cases member
  | cons i rest ih =>
    cases live : (react s i).halted with
    | true =>
      rw [steps_cons_halted live, List.mem_singleton] at member
      rw [member]
    | false =>
      rw [steps_cons_live live] at member
      rcases List.mem_cons.mp member with rfl | later
      · rfl
      · exact ih later

/-- Every step of a run is the one taken after some prefix of its inputs,
and every input that finds the machine running is a step. -/
theorem mem_steps_iff {st : Step σ ι ω} :
    st ∈ steps react s inputs ↔ ∃ before after, inputs = before ++ st.input :: after ∧
      (run react s before).halted = false ∧ st.before = (run react s before).state ∧
      st.reaction = react st.before st.input := by
  induction inputs generalizing s with
  | nil => simp
  | cons i rest ih =>
    constructor
    · intro member
      have answer := reaction_of_mem_steps member
      cases live : (react s i).halted with
      | true =>
        rw [steps_cons_halted live, List.mem_singleton] at member
        subst member
        exact ⟨[], rest, rfl, rfl, rfl, rfl⟩
      | false =>
        rw [steps_cons_live live] at member
        rcases List.mem_cons.mp member with rfl | later
        · exact ⟨[], rest, rfl, rfl, rfl, rfl⟩
        · obtain ⟨before, after, split, running, found, _⟩ := ih.mp later
          refine ⟨i :: before, after, by rw [split, List.cons_append], ?_, ?_, answer⟩
          · rw [run_cons_live live, running]
          · rw [run_cons_live live, found]
    · rintro ⟨before, after, split, running, found, answer⟩
      cases before with
      | nil =>
        obtain ⟨rfl, rfl⟩ := List.cons.inj split
        have same : st = ⟨s, st.input, react s st.input⟩ := by
          have origin : st.before = s := found
          obtain ⟨b, j, r⟩ := st
          simp only at origin answer ⊢
          rw [answer, origin]
        rw [steps, same]
        exact List.mem_cons_self ..
      | cons j before =>
        obtain ⟨rfl, tail⟩ := List.cons.inj split
        cases live : (react s i).halted with
        | true => rw [run_cons_halted live, live] at running; cases running
        | false =>
          rw [run_cons_live live] at running found
          rw [steps_cons_live live]
          exact List.mem_cons_of_mem _ (ih.mpr ⟨before, after, tail, running, found, answer⟩)

/-- A run takes its steps on its own inputs. -/
theorem input_mem_of_mem_steps {st : Step σ ι ω} (member : st ∈ steps react s inputs) : st.input ∈ inputs := by
  obtain ⟨before, after, split, _⟩ := mem_steps_iff.mp member
  rw [split]
  exact List.mem_append_right before (List.mem_cons_self ..)

theorem steps_append (live : (run react s inputs).halted = false) :
    steps react s (inputs ++ more) =
      steps react s inputs ++ steps react (run react s inputs).state more := by
  induction inputs generalizing s with
  | nil => rfl
  | cons i rest ih =>
    cases first : (react s i).halted with
    | true => rw [run_cons_halted first, first] at live; cases live
    | false =>
      rw [run_cons_live first] at live
      rw [List.cons_append, steps_cons_live first, ih live, steps_cons_live first,
        run_cons_live first, List.cons_append]

theorem run_concat (live : (run react s inputs).halted = false) (i : ι) :
    run react s (inputs ++ [i]) = ⟨(react (run react s inputs).state i).state,
      (run react s inputs).output ++ (react (run react s inputs).state i).output,
      (react (run react s inputs).state i).halted⟩ := by
  have single : run react (run react s inputs).state [i] = react (run react s inputs).state i := by
    cases last : (react (run react s inputs).state i).halted with
    | true => exact run_cons_halted last
    | false => simp [run_cons_live last, Reaction.stay, ← last]
  rw [run_append live, single]

theorem steps_concat (live : (run react s inputs).halted = false) (i : ι) :
    steps react s (inputs ++ [i]) = steps react s inputs ++
      [⟨(run react s inputs).state, i, react (run react s inputs).state i⟩] := by
  rw [steps_append live]
  cases last : (react (run react s inputs).state i).halted with
  | true => rw [steps_cons_halted last]
  | false => rw [steps_cons_live last, steps_nil]

/-- Runs that keep going grow by one step at a time. -/
theorem live_run_induction {P : List ι → Prop} (start : P [])
    (step : ∀ before i, (run react s before).halted = false →
      (react (run react s before).state i).halted = false → P before → P (before ++ [i]))
    (live : (run react s inputs).halted = false) : P inputs := by
  induction inputs using List.reverseRecOn with
  | nil => exact start
  | append_singleton before i ih =>
    have earlier := run_live_of_append live
    rw [run_concat earlier] at live
    exact step before i earlier live (ih earlier)

/-- The rule for runs. While the machine runs, every step keeps a relation
`I` between its state and everything emitted so far; a step that halts it,
or the end of the inputs, then gives the conclusion `P` about the whole run.
The guard `G` is what the steps of this one run are known to meet. -/
theorem run_rule {I : σ → List ω → Prop} {P : Reaction σ ω → Prop} {G : σ → ι → Prop}
    (keep : ∀ s past i, I s past → G s i → (react s i).halted = false →
      I (react s i).state (past ++ (react s i).output))
    (stop : ∀ s past i, I s past → G s i → (react s i).halted = true →
      P ⟨(react s i).state, past ++ (react s i).output, true⟩)
    (done : ∀ s past, I s past → P ⟨s, past, false⟩) {past : List ω} (start : I s past)
    (guarded : ∀ st ∈ steps react s inputs, G st.before st.input) :
    P ⟨(run react s inputs).state, past ++ (run react s inputs).output,
      (run react s inputs).halted⟩ := by
  induction inputs generalizing s past with
  | nil => simpa [Reaction.stay] using done s past start
  | cons i rest ih =>
    have here : G s i := guarded ⟨s, i, react s i⟩ (by simp [steps])
    cases live : (react s i).halted with
    | true =>
      rw [run_cons_halted live, live]
      exact stop s past i start here live
    | false =>
      rw [run_cons_live live, ← List.append_assoc]
      refine ih (keep s past i start here live) fun st member => guarded st ?_
      rw [steps_cons_live live]
      exact List.mem_cons_of_mem _ member

/-- What every step keeps holds of the state a run leaves running. -/
theorem run_invariant {I : σ → List ω → Prop} {G : σ → ι → Prop}
    (keep : ∀ s past i, I s past → G s i → (react s i).halted = false →
      I (react s i).state (past ++ (react s i).output))
    (start : I s []) (guarded : ∀ st ∈ steps react s inputs, G st.before st.input)
    (live : (run react s inputs).halted = false) :
    I (run react s inputs).state (run react s inputs).output := by
  let P : Reaction σ ω → Prop := fun r => r.halted = false → I r.state r.output
  have stop : ∀ s past i, I s past → G s i → (react s i).halted = true →
      P ⟨(react s i).state, past ++ (react s i).output, true⟩ :=
    fun _ _ _ _ _ _ running => by cases running
  have done : ∀ s past, I s past → P ⟨s, past, false⟩ := fun _ _ holds _ => holds
  have whole := run_rule keep stop done start guarded
  exact whole live

/-- What every step keeps, the halting ones included, holds after every run. -/
theorem run_always {I : σ → List ω → Prop} {G : σ → ι → Prop}
    (keep : ∀ s past i, I s past → G s i → I (react s i).state (past ++ (react s i).output))
    (start : I s []) (guarded : ∀ st ∈ steps react s inputs, G st.before st.input) :
    I (run react s inputs).state (run react s inputs).output :=
  run_rule (P := fun r => I r.state r.output) (fun s past i holds here _ => keep s past i holds here)
    (fun s past i holds here _ => keep s past i holds here) (fun _ _ holds => holds) start guarded

end Runs

end Reactive
