import SecureExchange.Library.Handles
import SecureExchange.Library.Process

namespace Handles
open Process

variable {κ σ : Type}

/-- A program over handles can do what a conversation does: its calls on
the socket are those of the conversation, its other calls can be answered so
that it goes on like it, and it ends the same way. -/
inductive Follows {α β : Type} (socket : Handle κ) (R : α → β → Prop) : Prog κ σ α → σ → Proc β → Prop
  | ret {a b members} (same : R a b) : Follows socket R (.ret a) members (.ret b)
  | throw {message members} : Follows socket R (.throw message) members (.throw message)
  | send {bytes next goes members} (each : ∀ n, Follows socket R (next n) members (goes n)) :
      Follows socket R (.send socket bytes next) members (.send bytes goes)
  | recv {waitAll want next goes members} (each : ∀ chunk, Follows socket R (next chunk) members (goes chunk)) :
      Follows socket R (.recv socket waitAll want next) members (.recv waitAll want goes)
  | acquired {origin uses next members y} (each : ∀ h, Follows socket R (next (some h)) members y) :
      Follows socket R (.acquire origin uses next) members y
  | refused {origin uses next members y} (goes : Follows socket R (next none) members y) :
      Follows socket R (.acquire origin uses next) members y
  | released {h next members y} (goes : Follows socket R next members y) : Follows socket R (.release h next) members y
  | called {γ : Type} {uses : List (Handle κ)} {next : γ → Prog κ σ α} {members y} (answer : γ)
      (goes : Follows socket R (next answer) members y) : Follows socket R (.call uses next) members y
  | got {next members y} (goes : Follows socket R (next members) members y) : Follows socket R (.get next) members y
  | put {next members members' y} (goes : Follows socket R next members' y) :
      Follows socket R (.set members' next) members y

section Rules
variable {α β α' β' : Type} {socket : Handle κ} {R : α → β → Prop} {S : α' → β' → Prop} {x : Prog κ σ α}
  {y : Proc β} {members : σ}

/-- What is done after a program may follow what comes after the conversation. -/
theorem Follows.leave {returned : α → Prog κ σ α'} {thrown : String → Prog κ σ α'} {next : β → Proc β'}
    (first : Follows socket R x members y)
    (rest : ∀ a b members', R a b → Follows socket S (returned a) members' (next b))
    (stops : ∀ message members', Follows socket S (thrown message) members' (.throw message)) :
    Follows socket S (x.leave returned thrown) members (y >>= next) := by
  induction first with
  | ret same => exact rest _ _ _ same
  | throw => exact stops _ _
  | send _ ih => exact .send ih
  | recv _ ih => exact .recv ih
  | acquired _ ih => exact .acquired ih
  | refused _ ih => exact .refused ih
  | released _ ih => exact .released ih
  | called answer _ ih => exact .called answer ih
  | got _ ih => exact .got ih
  | put _ ih => exact .put ih

theorem Follows.bind {k : α → Prog κ σ α'} {next : β → Proc β'} (first : Follows socket R x members y)
    (rest : ∀ a b members', R a b → Follows socket S (k a) members' (next b)) :
    Follows socket S (x >>= k) members (y >>= next) :=
  first.leave rest fun _ _ => .throw

/-- A program that can do its work without the socket. -/
def Quiet (x : Prog κ σ α) (a : α) : Prop :=
  ∀ (socket : Handle κ) (β : Type) (b : β) (members : σ), Follows socket (fun found _ => found = a) x members (.ret b)

theorem Quiet.andThen {a : α} {k : α → Prog κ σ α'} {y : Proc β'} (quiet : Quiet x a)
    (rest : ∀ members', Follows socket S (k a) members' y) (members : σ) : Follows socket S (x >>= k) members y := by
  have first : Follows socket S (x >>= k) members ((Proc.ret ()).bind fun _ => y) := by
    refine Follows.bind (quiet socket Unit () members) fun found _ members' same => ?_
    subst same
    exact rest members'
  exact first

theorem Quiet.thenRet {cleanup : Prog κ σ Unit} {a : α} {b : β} (quiet : Quiet cleanup ()) (same : R a b) (members : σ) :
    Follows socket R (cleanup.bind fun _ => .ret a) members (.ret b) :=
  quiet.andThen (k := fun _ => .ret a) (fun _ => .ret same) members

theorem Quiet.thenThrow {cleanup : Prog κ σ Unit} {message : String} (quiet : Quiet cleanup ()) (members : σ) :
    Follows socket R (cleanup.bind fun _ => .throw message) members (.throw message) :=
  quiet.andThen (fun _ => .throw) members

theorem Follows.ensure {cleanup : Prog κ σ Unit} (follows : Follows socket R x members y) (quiet : Quiet cleanup ()) :
    Follows socket R (x.ensure cleanup) members y := by
  rw [← Proc.bind_ret y]
  exact follows.leave (fun _ _ members' same => quiet.thenRet same members') fun _ members' => quiet.thenThrow members'

theorem Follows.onThrow {cleanup : Prog κ σ Unit} (follows : Follows socket R x members y) (quiet : Quiet cleanup ()) :
    Follows socket R (x.onThrow cleanup) members y := by
  rw [← Proc.bind_ret y]
  exact follows.leave (fun _ _ _ same => .ret same) fun _ members' => quiet.thenThrow members'

section Calls
variable {k : α → Prog κ σ α'} {y : Proc β'} {origin : κ} {uses : List (Handle κ)} {message : String}

end Calls

end Rules

/-- How a program ends that holds a conversation and does nothing with its
result. -/
def ending {β : Type} : Except String β → End Unit
  | .ok _ => .returned ()
  | .error message => .thrown message

/-- The same outside, which also keeps what it has exchanged. -/
def recording {ε : Type} (W : World ε) : World (ε × List Exchange) where
  send e bytes n e' := W.send e.1 bytes n e'.1 ∧ e'.2 = e.2 ++ [.sent bytes n]
  recv e waitAll want chunk e' := W.recv e.1 waitAll want chunk e'.1 ∧ e'.2 = e.2 ++ [.received waitAll want chunk]

section Simulation
variable {β ε : Type} [DecidableEq κ] {socket : Handle κ} {R : Unit → β → Prop} {W : World ε} {x : Prog κ σ Unit}
  {y y' : Proc β} {s : Store κ σ}

theorem Run.silent {α : Type} {here between there : Prog κ σ α × Store κ σ} {exchanges : List (Handle κ × Exchange)}
    (turn : Turn here [] between) (rest : Run between exchanges there) : Run here exchanges there := .step turn rest

/-- A program that follows a conversation gets, without it, to where the
conversation goes on or ends. -/
inductive Reaches (socket : Handle κ) (R : Unit → β → Prop) (here : Prog κ σ Unit × Store κ σ) : Proc β → Prop
  | ended {y r there} (run : Run here [] there) (outcome : y.outcome = some r)
      (ends : there.1.outcome = some (ending r)) : Reaches socket R here y
  | send {bytes goes next s'} (run : Run here [] (.send socket bytes next, s'))
      (each : ∀ n, Follows socket R (next n) s'.members (goes n)) : Reaches socket R here (.send bytes goes)
  | recv {waitAll want goes next s'} (run : Run here [] (.recv socket waitAll want next, s'))
      (each : ∀ chunk, Follows socket R (next chunk) s'.members (goes chunk)) :
      Reaches socket R here (.recv waitAll want goes)

theorem Reaches.silent {here there : Prog κ σ Unit × Store κ σ} (turn : Turn here [] there)
    (reaches : Reaches socket R there y) : Reaches socket R here y := by
  cases reaches with
  | ended run outcome ends => exact .ended (run.silent turn) outcome ends
  | send run each => exact .send (run.silent turn) each
  | recv run each => exact .recv (run.silent turn) each

theorem Follows.reaches (follows : Follows socket R x s.members y) : Reaches socket R (x, s) y := by
  generalize same : s.members = members at follows
  induction follows generalizing s with
  | @ret a b members _ => exact .ended (r := .ok b) .refl rfl rfl
  | @throw message members => exact .ended (r := .error message) .refl rfl rfl
  | send each _ =>
    subst same
    exact .send .refl each
  | recv each _ =>
    subst same
    exact .recv .refl each
  | @acquired origin _ _ _ _ _ ih =>
    obtain ⟨number, fresh⟩ := s.exists_fresh origin
    exact (ih ⟨origin, number⟩ (s := s.with ⟨origin, number⟩) same).silent (.acquired fresh)
  | refused _ ih => exact (ih same).silent .refused
  | @released h _ _ _ _ ih => exact (ih (s := ⟨s.live.erase h, s.members⟩) same).silent .released
  | called answer _ ih => exact (ih same).silent (.called answer)
  | got _ ih =>
    subst same
    exact (ih rfl).silent .got
  | @put _ _ members' _ _ ih => exact (ih (s := ⟨s.live, members'⟩) rfl).silent .put

/-- One call of the conversation is one call of the program on its socket. -/
theorem Follows.turn (follows : Follows socket R x s.members y) {here there : ε × List Exchange}
    (turn : Process.Turn (recording W) (y, here) (y', there)) :
    ∃ exchange x' s', there.2 = here.2 ++ [exchange] ∧ Run (x, s) [(socket, exchange)] (x', s') ∧
      Follows socket R x' s'.members y' := by
  cases follows.reaches with
  | ended _ outcome _ => cases turn <;> cases outcome
  | @send bytes goes next s' run each =>
    cases turn with
    | @send _ _ _ n _ answers =>
      exact ⟨.sent bytes n, next n, s', answers.2, run.trans (.step .sent .refl), each n⟩
  | @recv waitAll want goes next s' run each =>
    cases turn with
    | @recv _ _ _ _ chunk _ answers =>
      exact ⟨.received waitAll want chunk, next chunk, s', answers.2, run.trans (.step .received .refl), each chunk⟩

theorem Follows.ends (follows : Follows socket R x s.members y) {r : Except String β} (ended : y.outcome = some r) :
    ∃ there, Run (x, s) [] there ∧ there.1.outcome = some (ending r) := by
  cases follows.reaches with
  | ended run outcome ends =>
    cases outcome.symm.trans ended
    exact ⟨_, run, ends⟩
  | send | recv => cases ended

end Simulation

end Handles
