import Mathlib.Data.Finset.Range
import Mathlib.Data.Multiset.MapFold
import SecureExchange.Library.Process

namespace Handles
open Process

/-- What a program owns until it gives it back: a reference or an open
file, with the call that it came from. -/
structure Handle (κ : Type) where
  origin : κ
  number : Nat
deriving DecidableEq

/-- A program by its calls in order. `acquire` goes on with a new handle or
without one, `call` with any answer, and both use the handles they are
passed. `send` and `recv` are calls on a stream socket. Members outlive the
function that sets them. A crash ends the program without cleaning up. -/
inductive Prog (κ σ α : Type) : Type 1 where
  | ret (value : α)
  | throw (message : String)
  | crash
  | acquire (origin : κ) (uses : List (Handle κ)) (next : Option (Handle κ) → Prog κ σ α)
  | release (h : Handle κ) (next : Prog κ σ α)
  | call {β : Type} (uses : List (Handle κ)) (next : β → Prog κ σ α)
  | send (socket : Handle κ) (bytes : List UInt8) (next : Nat → Prog κ σ α)
  | recv (socket : Handle κ) (waitAll : Bool) (want : Nat) (next : List UInt8 → Prog κ σ α)
  | get (next : σ → Prog κ σ α)
  | set (members : σ) (next : Prog κ σ α)

namespace Prog
variable {κ σ α β : Type}

/-- What is done where a program returns, and where it throws. -/
def leave (returned : α → Prog κ σ β) (thrown : String → Prog κ σ β) : Prog κ σ α → Prog κ σ β
  | .ret a => returned a
  | .throw message => thrown message
  | .crash => .crash
  | .acquire origin uses next => .acquire origin uses fun h => (next h).leave returned thrown
  | .release h next => .release h (next.leave returned thrown)
  | .call uses next => .call uses fun answer => (next answer).leave returned thrown
  | .send socket bytes next => .send socket bytes fun n => (next n).leave returned thrown
  | .recv socket waitAll want next => .recv socket waitAll want fun chunk => (next chunk).leave returned thrown
  | .get next => .get fun members => (next members).leave returned thrown
  | .set members next => .set members (next.leave returned thrown)

def bind (x : Prog κ σ α) (k : α → Prog κ σ β) : Prog κ σ β := x.leave k .throw

instance : Monad (Prog κ σ) where
  pure := .ret
  bind := bind

theorem bind_assoc {γ : Type} (x : Prog κ σ α) (k : α → Prog κ σ β) (next : β → Prog κ σ γ) :
    (x.bind k).bind next = x.bind fun a => (k a).bind next := by
  induction x with
  | ret | throw | crash => rfl
  | acquire origin uses goes ih => exact congrArg (Prog.acquire origin uses) (funext ih)
  | release h goes ih => exact congrArg (Prog.release h) ih
  | call uses goes ih => exact congrArg (Prog.call uses) (funext ih)
  | send socket bytes goes ih => exact congrArg (Prog.send socket bytes) (funext ih)
  | recv socket waitAll want goes ih => exact congrArg (Prog.recv socket waitAll want) (funext ih)
  | get goes ih => exact congrArg Prog.get (funext ih)
  | set members goes ih => exact congrArg (Prog.set members) ih

/-- What is done on leaving a scope, normally or by an exception. -/
def ensure (x : Prog κ σ α) (cleanup : Prog κ σ Unit) : Prog κ σ α :=
  x.leave (fun a => cleanup.bind fun _ => .ret a) fun message => cleanup.bind fun _ => .throw message

/-- What is done before an exception is thrown on. -/
def onThrow (x : Prog κ σ α) (cleanup : Prog κ σ Unit) : Prog κ σ α :=
  x.leave .ret fun message => cleanup.bind fun _ => .throw message

def members : Prog κ σ σ := .get .ret

def update (change : σ → σ) : Prog κ σ Unit := .get fun members => .set (change members) (.ret ())

/-- A call with an answer. -/
def ask (uses : List (Handle κ)) : Prog κ σ α := .call uses .ret

/-- A call that throws when it fails. -/
def check (uses : List (Handle κ)) (message : String) : Prog κ σ Unit :=
  .call uses fun ok => if ok = true then .ret () else .throw message

/-- The same for a call with a result. -/
def fetch (uses : List (Handle κ)) (message : String) : Prog κ σ α :=
  .call uses fun answer =>
    match answer with
    | some value => .ret value
    | none => .throw message

/-- A call that may give a new handle. -/
def tryNew (origin : κ) (uses : List (Handle κ)) : Prog κ σ (Option (Handle κ)) := .acquire origin uses .ret

/-- A call that gives a new handle or throws. -/
def new (origin : κ) (uses : List (Handle κ)) (message : String) : Prog κ σ (Handle κ) :=
  .acquire origin uses fun h =>
    match h with
    | some h => .ret h
    | none => .throw message

/-- Give a handle back. -/
def free (h : Handle κ) : Prog κ σ Unit := .release h (.ret ())

/-- Give a handle back unless it is null. -/
def freeIf : Option (Handle κ) → Prog κ σ Unit
  | none => .ret ()
  | some h => free h

end Prog

inductive End (α : Type) where
  | returned (value : α)
  | thrown (message : String)
  | crashed

/-- The handles a program owns, and the members of its objects. -/
structure Store (κ σ : Type) where
  live : Multiset (Handle κ)
  members : σ

/-- A call on a socket with its answer. -/
inductive Exchange where
  | sent (bytes : List UInt8) (n : Nat)
  | received (waitAll : Bool) (want : Nat) (chunk : List UInt8)

section Runs
variable {κ σ α β : Type} [DecidableEq κ]

def Prog.outcome : Prog κ σ α → Option (End α)
  | .ret a => some (.returned a)
  | .throw message => some (.thrown message)
  | .crash => some .crashed
  | _ => none

/-- One call of a program, with what it exchanges on a socket. A new handle
is none that the program owns. A send on a connection that the other side
has closed may fail, or kill the program. -/
inductive Turn : Prog κ σ α × Store κ σ → List (Handle κ × Exchange) → Prog κ σ α × Store κ σ → Prop
  | refused {origin uses next s} : Turn (.acquire origin uses next, s) [] (next none, s)
  | acquired {origin uses next s number} (fresh : ⟨origin, number⟩ ∉ s.live) :
      Turn (.acquire origin uses next, s) [] (next (some ⟨origin, number⟩), ⟨⟨origin, number⟩ ::ₘ s.live, s.members⟩)
  | released {h next s} : Turn (.release h next, s) [] (next, ⟨s.live.erase h, s.members⟩)
  | called {γ : Type} {uses : List (Handle κ)} {next : γ → Prog κ σ α} {s} (answer : γ) :
      Turn (.call uses next, s) [] (next answer, s)
  | sent {socket bytes next s n} : Turn (.send socket bytes next, s) [(socket, .sent bytes n)] (next n, s)
  | killed {socket bytes next s} : Turn (.send socket bytes next, s) [] (.crash, s)
  | received {socket waitAll want next s chunk} :
      Turn (.recv socket waitAll want next, s) [(socket, .received waitAll want chunk)] (next chunk, s)
  | got {next s} : Turn (.get next, s) [] (next s.members, s)
  | put {members next s} : Turn (.set members next, s) [] (next, ⟨s.live, members⟩)

/-- A run with what it exchanges on its sockets. -/
inductive Run : Prog κ σ α × Store κ σ → List (Handle κ × Exchange) → Prog κ σ α × Store κ σ → Prop
  | refl {here} : Run here [] here
  | step {here between there label exchanges} (turn : Turn here label between) (rest : Run between exchanges there) :
      Run here (label ++ exchanges) there

theorem Run.trans {here between there : Prog κ σ α × Store κ σ} {exchanges more : List (Handle κ × Exchange)}
    (first : Run here exchanges between) (rest : Run between more there) : Run here (exchanges ++ more) there := by
  induction first with
  | refl => exact rest
  | step turn _ ih =>
    rw [List.append_assoc]
    exact .step turn (ih rest)

/-- A program about to give back or use a handle that it does not own. -/
def Faulty : Prog κ σ α × Store κ σ → Prop
  | (.release h _, s) => h ∉ s.live
  | (.acquire _ uses _, s) => ∃ h ∈ uses, h ∉ s.live
  | (.call uses _, s) => ∃ h ∈ uses, h ∉ s.live
  | (.send socket _ _, s) => socket ∉ s.live
  | (.recv socket _ _ _, s) => socket ∉ s.live
  | _ => False

/-- However its calls are answered, a program uses and gives back only what
it owns, and ends in a state that meets the postcondition. -/
def Meets : Prog κ σ α → Store κ σ → (End α → Store κ σ → Prop) → Prop
  | .ret a, s, Q => Q (.returned a) s
  | .throw message, s, Q => Q (.thrown message) s
  | .crash, s, Q => Q .crashed s
  | .acquire origin uses next, s, Q => (∀ h ∈ uses, h ∈ s.live) ∧ Meets (next none) s Q ∧
    ∀ number, ⟨origin, number⟩ ∉ s.live → Meets (next (some ⟨origin, number⟩)) ⟨⟨origin, number⟩ ::ₘ s.live, s.members⟩ Q
  | .release h next, s, Q => h ∈ s.live ∧ Meets next ⟨s.live.erase h, s.members⟩ Q
  | .call uses next, s, Q => (∀ h ∈ uses, h ∈ s.live) ∧ ∀ answer, Meets (next answer) s Q
  | .send socket _ next, s, Q => socket ∈ s.live ∧ Q .crashed s ∧ ∀ n, Meets (next n) s Q
  | .recv socket _ _ next, s, Q => socket ∈ s.live ∧ ∀ chunk, Meets (next chunk) s Q
  | .get next, s, Q => Meets (next s.members) s Q
  | .set members next, s, Q => Meets next ⟨s.live, members⟩ Q

variable {x x' : Prog κ σ α} {s s' : Store κ σ} {P Q : End α → Store κ σ → Prop}

theorem Meets.turn {here there : Prog κ σ α × Store κ σ} {label : List (Handle κ × Exchange)}
    (meets : Meets here.1 here.2 Q) (turn : Turn here label there) : Meets there.1 there.2 Q := by
  cases turn with
  | refused => exact meets.2.1
  | acquired fresh => exact meets.2.2 _ fresh
  | released => exact meets.2
  | called => exact meets.2 _
  | sent => exact meets.2.2 _
  | killed => exact meets.2.1
  | received => exact meets.2 _
  | got | put => exact meets

theorem Meets.reach {here there : Prog κ σ α × Store κ σ} {exchanges : List (Handle κ × Exchange)}
    (meets : Meets here.1 here.2 Q) (run : Run here exchanges there) : Meets there.1 there.2 Q := by
  induction run with
  | refl => exact meets
  | step turn _ ih => exact ih (meets.turn turn)

theorem Meets.sound (meets : Meets x s Q) : ¬ Faulty (x, s) := by
  cases x with
  | ret | throw | crash | get | set => exact id
  | acquire origin uses next => exact fun ⟨h, used, lost⟩ => lost (meets.1 h used)
  | release h next => exact fun lost => lost meets.1
  | call uses next => exact fun ⟨h, used, lost⟩ => lost (meets.1 h used)
  | send socket bytes next => exact fun lost => lost meets.1
  | recv socket waitAll want next => exact fun lost => lost meets.1

theorem Meets.outcome (meets : Meets x s Q) {e : End α} (ended : x.outcome = some e) : Q e s := by
  cases x with
  | ret | throw | crash =>
    cases ended
    exact meets
  | acquire | release | call | send | recv | get | set => cases ended

theorem Meets.mono (meets : Meets x s P) (weaker : ∀ e s', P e s' → Q e s') : Meets x s Q := by
  induction x generalizing s with
  | ret | throw | crash => exact weaker _ _ meets
  | acquire origin uses next ih =>
    exact ⟨meets.1, ih none meets.2.1, fun number fresh => ih (some ⟨origin, number⟩) (meets.2.2 number fresh)⟩
  | release h next ih => exact ⟨meets.1, ih meets.2⟩
  | call uses next ih => exact ⟨meets.1, fun answer => ih answer (meets.2 answer)⟩
  | send socket bytes next ih => exact ⟨meets.1, weaker _ _ meets.2.1, fun n => ih n (meets.2.2 n)⟩
  | recv socket waitAll want next ih => exact ⟨meets.1, fun chunk => ih chunk (meets.2 chunk)⟩
  | get next ih => exact ih _ meets
  | set members next ih => exact ih meets

/-- What a program has to end with, so that what is done after it ends
well. -/
def Leaving (returned : α → Prog κ σ β) (thrown : String → Prog κ σ β) (R : End β → Store κ σ → Prop) :
    End α → Store κ σ → Prop
  | .returned a, s => Meets (returned a) s R
  | .thrown message, s => Meets (thrown message) s R
  | .crashed, s => R .crashed s

theorem Meets.leave {returned : α → Prog κ σ β} {thrown : String → Prog κ σ β} {R : End β → Store κ σ → Prop}
    (body : Meets x s (Leaving returned thrown R)) : Meets (x.leave returned thrown) s R := by
  induction x generalizing s with
  | ret | throw | crash => exact body
  | acquire origin uses next ih =>
    exact ⟨body.1, ih none body.2.1, fun number fresh => ih (some ⟨origin, number⟩) (body.2.2 number fresh)⟩
  | release h next ih => exact ⟨body.1, ih body.2⟩
  | call uses next ih => exact ⟨body.1, fun answer => ih answer (body.2 answer)⟩
  | send socket bytes next ih => exact ⟨body.1, body.2.1, fun n => ih n (body.2.2 n)⟩
  | recv socket waitAll want next ih => exact ⟨body.1, fun chunk => ih chunk (body.2 chunk)⟩
  | get next ih => exact ih _ body
  | set members next ih => exact ih body

theorem Meets.bind {k : α → Prog κ σ β} {R : End β → Store κ σ → Prop} (first : Meets x s (Leaving k .throw R)) :
    Meets (x >>= k) s R := Meets.leave first

/-- A store with one more handle. -/
def Store.with (s : Store κ σ) (h : Handle κ) : Store κ σ := ⟨h ::ₘ s.live, s.members⟩

omit [DecidableEq κ] in
theorem Store.exists_fresh (s : Store κ σ) (origin : κ) : ∃ number, ⟨origin, number⟩ ∉ s.live := by
  obtain ⟨bound, below⟩ := Finset.exists_nat_subset_range (s.live.map Handle.number).toFinset
  refine ⟨bound, fun among => Finset.notMem_range_self (below (Multiset.mem_toFinset.mpr ?_))⟩
  exact Multiset.mem_map_of_mem Handle.number among

/-- Nothing has changed, and what was thrown is among some messages. -/
def Kept (throws : String → Prop) (s : Store κ σ) : End α → Store κ σ → Prop
  | .returned _, s' => s' = s
  | .thrown message, s' => throws message ∧ s' = s
  | .crashed, _ => True

/-- The same with one new handle, which is the result. -/
def Gained (origin : κ) (throws : String → Prop) (s : Store κ σ) : End (Handle κ) → Store κ σ → Prop
  | .returned h, s' => h.origin = origin ∧ s' = s.with h
  | .thrown message, s' => throws message ∧ s' = s
  | .crashed, _ => True

/-- The program owns what the members hold, what was there before, and the
handles that an end is known to lose, by the calls that these came from. -/
def Held (holds : σ → Multiset (Handle κ) → Prop) (lost : End α → Multiset κ) (base : Multiset (Handle κ)) :
    End α → Store κ σ → Prop
  | .crashed, _ => True
  | e, s => ∃ held more : Multiset (Handle κ),
      holds s.members held ∧ more.map Handle.origin = lost e ∧ s.live = held + more + base

section Rules
variable {throws : String → Prop} {holds : σ → Multiset (Handle κ) → Prop} {base : Multiset (Handle κ)}
  {uses : List (Handle κ)} {origin : κ} {message : String} {h : Handle κ}

theorem Meets.acquire {next : Option (Handle κ) → Prog κ σ α} (known : ∀ h ∈ uses, h ∈ s.live)
    (refused : Meets (next none) s Q) (acquired : ∀ h, h.origin = origin → Meets (next (some h)) (s.with h) Q) :
    Meets (.acquire origin uses next) s Q :=
  ⟨known, refused, fun number _ => acquired ⟨origin, number⟩ rfl⟩

theorem Meets.after_kept {k : α → Prog κ σ β} {R : End β → Store κ σ → Prop} (first : Meets x s (Kept throws s))
    (rest : ∀ a, Meets (k a) s R) (stops : ∀ message, throws message → R (.thrown message) s)
    (crashes : ∀ s', R .crashed s') : Meets (x >>= k) s R := by
  refine Meets.bind (first.mono fun e s' post => ?_)
  cases e with
  | returned a =>
    obtain rfl : s' = s := post
    exact rest a
  | thrown message =>
    obtain ⟨thrown, rfl⟩ := post
    exact stops message thrown
  | crashed => exact crashes s'

theorem Meets.after_gained {x : Prog κ σ (Handle κ)} {k : Handle κ → Prog κ σ β} {R : End β → Store κ σ → Prop}
    (first : Meets x s (Gained origin throws s)) (rest : ∀ h, h.origin = origin → Meets (k h) (s.with h) R)
    (stops : ∀ message, throws message → R (.thrown message) s) (crashes : ∀ s', R .crashed s') :
    Meets (x >>= k) s R := by
  refine Meets.bind (first.mono fun e s' post => ?_)
  cases e with
  | returned h =>
    obtain ⟨came, rfl⟩ := post
    exact rest h came
  | thrown message =>
    obtain ⟨thrown, rfl⟩ := post
    exact stops message thrown
  | crashed => exact crashes s'

theorem Store.with_erase (s : Store κ σ) (h : Handle κ) :
    (⟨(s.with h).live.erase h, (s.with h).members⟩ : Store κ σ) = s := by
  have back : (h ::ₘ s.live).erase h = s.live := Multiset.erase_cons_head h s.live
  rw [Store.with, back]

omit [DecidableEq κ] in
theorem Store.mem_with (s : Store κ σ) (h : Handle κ) : h ∈ (s.with h).live := Multiset.mem_cons_self h s.live

/-- The last but one handle is given back. -/
theorem Store.with_with_erase (s : Store κ σ) (first second : Handle κ) :
    (⟨((s.with first).with second).live.erase first, ((s.with first).with second).members⟩ : Store κ σ) =
      s.with second := by
  have back : (second ::ₘ first ::ₘ s.live).erase first = second ::ₘ s.live := by
    rw [Multiset.cons_swap]
    exact Multiset.erase_cons_head ..
  simp only [Store.with, back]

theorem free_last {rest : Unit → Prog κ σ α} (goes : Meets (rest ()) s Q) : Meets (.free h >>= rest) (s.with h) Q :=
  ⟨s.mem_with h, (s.with_erase h).symm ▸ goes⟩

theorem free_second {first second : Handle κ} {rest : Unit → Prog κ σ α} (goes : Meets (rest ()) (s.with second) Q) :
    Meets (.free first >>= rest) ((s.with first).with second) Q :=
  ⟨Multiset.mem_cons_of_mem (s.mem_with first), (s.with_with_erase first second).symm ▸ goes⟩

theorem kept_bind {k : α → Prog κ σ β} (first : Meets x s (Kept throws s)) (rest : ∀ a, Meets (k a) s (Kept throws s)) :
    Meets (x >>= k) s (Kept throws s) :=
  first.after_kept rest (fun _ thrown => ⟨thrown, rfl⟩) fun _ => trivial

theorem kept_gained {x : Prog κ σ (Handle κ)} {k : Handle κ → Prog κ σ β} (first : Meets x s (Gained origin throws s))
    (rest : ∀ h, h.origin = origin → Meets (k h) (s.with h) (Kept throws s)) : Meets (x >>= k) s (Kept throws s) :=
  first.after_gained rest (fun _ thrown => ⟨thrown, rfl⟩) fun _ => trivial

theorem kept_check (known : ∀ h ∈ uses, h ∈ s.live) (thrown : throws message) :
    Meets (.check uses message) s (Kept throws s) := by
  refine ⟨known, fun ok => ?_⟩
  cases ok with
  | true => exact rfl
  | false => exact ⟨thrown, rfl⟩

theorem kept_fetch (known : ∀ h ∈ uses, h ∈ s.live) (thrown : throws message) :
    Meets (.fetch uses message : Prog κ σ α) s (Kept throws s) := by
  refine ⟨known, fun answer => ?_⟩
  cases answer with
  | some value => exact rfl
  | none => exact ⟨thrown, rfl⟩

theorem gained_new (known : ∀ h ∈ uses, h ∈ s.live) (thrown : throws message) :
    Meets (.new origin uses message) s (Gained origin throws s) :=
  ⟨known, ⟨thrown, rfl⟩, fun _ _ => ⟨rfl, rfl⟩⟩

/-- A handle that is given back on leaving its scope. -/
theorem kept_scoped (body : Meets x (s.with h) (Kept throws (s.with h))) :
    Meets (x.ensure (.free h)) (s.with h) (Kept throws s) := by
  refine Meets.leave (body.mono fun e s' post => ?_)
  cases e with
  | returned a =>
    obtain rfl : s' = s.with h := post
    exact ⟨s.mem_with h, s.with_erase h⟩
  | thrown message =>
    obtain ⟨thrown, rfl⟩ := post
    exact ⟨s.mem_with h, thrown, s.with_erase h⟩
  | crashed => exact trivial

/-- A handle on top of what there was before is given back. -/
theorem held_release {held : Multiset (Handle κ)} (live : s.live = held + h ::ₘ base) :
    h ∈ s.live ∧ s.live.erase h = held + base := by
  rw [live, Multiset.add_cons]
  exact ⟨Multiset.mem_cons_self .., Multiset.erase_cons_head ..⟩

/-- A handle that is given back on leaving its scope, while the members may
take more. -/
theorem held_scoped {lost : End α → Multiset κ} (body : Meets x s (Held holds lost (h ::ₘ base))) :
    Meets (x.ensure (.free h)) s (Held holds lost base) := by
  refine Meets.leave (body.mono fun e s' post => ?_)
  cases e with
  | returned a =>
    obtain ⟨held, more, holding, origins, live⟩ := post
    obtain ⟨present, rest⟩ := held_release live
    exact ⟨present, held, more, holding, origins, rest⟩
  | thrown message =>
    obtain ⟨held, more, holding, origins, live⟩ := post
    obtain ⟨present, rest⟩ := held_release live
    exact ⟨present, held, more, holding, origins, rest⟩
  | crashed => exact trivial

/-- The same written out: given back before an exception goes on, and at the
end. -/
theorem held_caught {lost : End α → Multiset κ} {lost' : End Unit → Multiset κ}
    (returned : ∀ a, lost' (.returned ()) = lost (.returned a))
    (thrown : ∀ message, lost' (.thrown message) = lost (.thrown message))
    (body : Meets x s (Held holds lost (h ::ₘ base))) :
    Meets (x.onThrow (.free h) >>= fun _ => .free h) s (Held holds lost' base) := by
  refine Meets.bind (Meets.leave (body.mono fun e s' post => ?_))
  cases e with
  | returned a =>
    obtain ⟨held, more, holding, origins, live⟩ := post
    obtain ⟨present, rest⟩ := held_release live
    exact ⟨present, held, more, holding, origins.trans (returned a).symm, rest⟩
  | thrown message =>
    obtain ⟨held, more, holding, origins, live⟩ := post
    obtain ⟨present, rest⟩ := held_release live
    exact ⟨present, held, more, holding, origins.trans (thrown message).symm, rest⟩
  | crashed => exact trivial

/-- What a destructor does with a member. -/
theorem free_if {o : Option (Handle κ)} {rest : Multiset (Handle κ)} {k : Unit → Prog κ σ α}
    (live : s.live = (o.toList : Multiset (Handle κ)) + rest) (goes : Meets (k ()) ⟨rest, s.members⟩ Q) :
    Meets ((Prog.freeIf o).bind k) s Q := by
  cases o with
  | none =>
    have same : s = ⟨rest, s.members⟩ := by
      cases s
      simpa using live
    show Meets (k ()) s Q
    rw [same]
    exact goes
  | some h =>
    have cons : s.live = h ::ₘ rest := live
    refine ⟨cons ▸ Multiset.mem_cons_self h rest, ?_⟩
    rw [cons, Multiset.erase_cons_head]
    exact goes

end Rules

end Runs
end Handles
