import Mathlib.Logic.Relation

namespace Process

/-- A program that talks over one stream socket, by its system calls in
order. `send` goes on with the number of bytes taken, zero for a failure;
`recv` goes on with the bytes received, none at the end of the stream. -/
inductive Proc (α : Type) where
  | ret (value : α)
  | throw (message : String)
  | send (bytes : List UInt8) (next : Nat → Proc α)
  | recv (waitAll : Bool) (want : Nat) (next : List UInt8 → Proc α)

namespace Proc
variable {α β : Type}

def bind : Proc α → (α → Proc β) → Proc β
  | .ret a, k => k a
  | .throw message, _ => .throw message
  | .send bytes next, k => .send bytes fun n => (next n).bind k
  | .recv waitAll want next, k => .recv waitAll want fun chunk => (next chunk).bind k

instance : Monad Proc where
  pure := .ret
  bind := bind

def ofExcept : Except String α → Proc α
  | .ok a => .ret a
  | .error message => .throw message

@[simp] theorem ofExcept_ok_bind (a : α) (k : α → Proc β) : ofExcept (.ok a) >>= k = k a := rfl

/-- Steps that fail before any call may be taken together. -/
theorem ofExcept_bind_assoc {γ : Type} (r : Except String α) (k : α → Except String β) (next : β → Proc γ) :
    ofExcept (r >>= k) >>= next = ofExcept r >>= fun a => ofExcept (k a) >>= next := by
  cases r <;> rfl

theorem bind_ret (x : Proc α) : x >>= .ret = x := by
  induction x with
  | ret | throw => rfl
  | send bytes next ih => exact congrArg (Proc.send bytes) (funext ih)
  | recv waitAll want next ih => exact congrArg (Proc.recv waitAll want) (funext ih)

/-- How a program has ended, if it has. -/
def outcome : Proc α → Option (Except String α)
  | .ret a => some (.ok a)
  | .throw message => some (.error message)
  | _ => none

end Proc

/-- What the outside may do in a state: how many bytes it takes from a
`send`, and what it answers a `recv` with. -/
structure World (ε : Type) where
  send : ε → List UInt8 → Nat → ε → Prop
  recv : ε → Bool → Nat → List UInt8 → ε → Prop

section Worlds
variable {ε α β : Type} (W : World ε)

/-- One system call of a program. -/
inductive Turn : Proc α × ε → Proc α × ε → Prop
  | send {bytes next e n e'} (answers : W.send e bytes n e') : Turn (.send bytes next, e) (next n, e')
  | recv {waitAll want next e chunk e'} (answers : W.recv e waitAll want chunk e') :
      Turn (.recv waitAll want next, e) (next chunk, e')

/-- However the outside answers, it answers every call, and the program ends
with a result and in a state that meet the postcondition. -/
def Meets : Proc α → ε → (Except String α → ε → Prop) → Prop
  | .ret a, e, Q => Q (.ok a) e
  | .throw message, e, Q => Q (.error message) e
  | .send bytes next, e, Q => (∃ n e', W.send e bytes n e') ∧
    ∀ n e', W.send e bytes n e' → Meets (next n) e' Q
  | .recv waitAll want next, e, Q => (∃ chunk e', W.recv e waitAll want chunk e') ∧
    ∀ chunk e', W.recv e waitAll want chunk e' → Meets (next chunk) e' Q

variable {W} {x x' : Proc α} {e e' : ε} {P Q : Except String α → ε → Prop}

theorem Meets.of_send {bytes : List UInt8} {next : Nat → Proc α} (answered : ∃ n e', W.send e bytes n e')
    (goes : ∀ n e', W.send e bytes n e' → Meets W (next n) e' Q) : Meets W (.send bytes next) e Q := ⟨answered, goes⟩

theorem Meets.of_recv {waitAll : Bool} {want : Nat} {next : List UInt8 → Proc α}
    (answered : ∃ chunk e', W.recv e waitAll want chunk e')
    (goes : ∀ chunk e', W.recv e waitAll want chunk e' → Meets W (next chunk) e' Q) :
    Meets W (.recv waitAll want next) e Q := ⟨answered, goes⟩

/-- Sequencing: what follows starts wherever the first part may end. -/
theorem Meets.bind {k : α → Proc β} {R : Except String β → ε → Prop}
    (first : Meets W x e fun r e' =>
      match r with
      | .ok a => Meets W (k a) e' R
      | .error message => R (.error message) e') : Meets W (x >>= k) e R := by
  induction x generalizing e with
  | ret a => exact first
  | throw message => exact first
  | send bytes next ih => exact ⟨first.1, fun n e' answers => ih n (first.2 n e' answers)⟩
  | recv waitAll want next ih => exact ⟨first.1, fun chunk e' answers => ih chunk (first.2 chunk e' answers)⟩

theorem Meets.mono (meets : Meets W x e P) (weaker : ∀ r e', P r e' → Q r e') : Meets W x e Q := by
  induction x generalizing e with
  | ret a => exact weaker _ _ meets
  | throw message => exact weaker _ _ meets
  | send bytes next ih => exact ⟨meets.1, fun n e' answers => ih n (meets.2 n e' answers)⟩
  | recv waitAll want next ih => exact ⟨meets.1, fun chunk e' answers => ih chunk (meets.2 chunk e' answers)⟩

/-- Sequencing after a part that can end in one way only. -/
theorem Meets.andThen {k : α → Proc β} {a : α} {R : Except String β → ε → Prop}
    (first : Meets W x e fun r there => r = .ok a ∧ there = e') (second : Meets W (k a) e' R) :
    Meets W (x >>= k) e R := by
  refine Meets.bind (first.mono ?_)
  rintro r there ⟨rfl, rfl⟩
  exact second

@[simp] theorem meets_ofExcept {r : Except String α} : Meets W (.ofExcept r) e Q ↔ Q r e := by
  cases r <;> rfl

theorem Meets.turn (meets : Meets W x e Q) (turn : Turn W (x, e) (x', e')) : Meets W x' e' Q := by
  cases turn with
  | send answers => exact meets.2 _ _ answers
  | recv answers => exact meets.2 _ _ answers

/-- A specification holds along every run. -/
theorem Meets.reach (meets : Meets W x e Q) {there : Proc α × ε}
    (reach : Relation.ReflTransGen (Turn W) (x, e) there) : Meets W there.1 there.2 Q := by
  induction reach with
  | refl => exact meets
  | tail _ turn ih => exact ih.turn turn

theorem Meets.outcome (meets : Meets W x e Q) {r : Except String α} (ended : x.outcome = some r) : Q r e := by
  cases x with
  | ret a =>
    cases ended
    exact meets
  | throw message =>
    cases ended
    exact meets
  | send | recv => cases ended

/-- A program that has not ended is answered. -/
theorem Meets.next (meets : Meets W x e Q) (going : x.outcome = none) : ∃ there, Turn W (x, e) there := by
  cases x with
  | ret | throw => cases going
  | send bytes next =>
    obtain ⟨n, e', answers⟩ := meets.1
    exact ⟨_, .send answers⟩
  | recv waitAll want next =>
    obtain ⟨chunk, e', answers⟩ := meets.1
    exact ⟨_, .recv answers⟩

/-- A run of a program can go on, or has ended as specified. -/
theorem Meets.run (meets : Meets W x e Q) (reach : Relation.ReflTransGen (Turn W) (x, e) (x', e')) :
    (∃ there, Turn W (x', e') there) ∨ ∃ r, x'.outcome = some r ∧ Q r e' := by
  have later := meets.reach reach
  cases ended : x'.outcome with
  | none => exact Or.inl (later.next ended)
  | some r => exact Or.inr ⟨r, rfl, later.outcome ended⟩

/-- Some run of a program ends, and it ends as specified. -/
theorem Meets.exists_end (meets : Meets W x e Q) :
    ∃ x' e' r, Relation.ReflTransGen (Turn W) (x, e) (x', e') ∧ x'.outcome = some r ∧ Q r e' := by
  induction x generalizing e with
  | ret a => exact ⟨_, _, _, .refl, rfl, meets⟩
  | throw message => exact ⟨_, _, _, .refl, rfl, meets⟩
  | send bytes next ih =>
    obtain ⟨n, there, answers⟩ := meets.1
    obtain ⟨x', e', r, run, ended, post⟩ := ih n (meets.2 n there answers)
    exact ⟨x', e', r, .head (.send answers) run, ended, post⟩
  | recv waitAll want next ih =>
    obtain ⟨chunk, there, answers⟩ := meets.1
    obtain ⟨x', e', r, run, ended, post⟩ := ih chunk (meets.2 chunk there answers)
    exact ⟨x', e', r, .head (.recv answers) run, ended, post⟩

end Worlds

/-- What `recv` returns while the other end is open: everything asked for
with `MSG_WAITALL`, and at least something without. -/
def Full (waitAll : Bool) (want : Nat) (chunk : List UInt8) : Prop :=
  if waitAll then chunk.length = want else want = 0 ∨ chunk ≠ []

/-- A peer that has sent all it will send: what is left to read, and what
was written to it. -/
structure Stream where
  unread : List UInt8
  written : List UInt8

/-- Reads may be cut anywhere, and writes may be short or fail. A program
that a signal kills at a failing write makes no more calls, so it stops where
it is. -/
def stream : World Stream where
  send e bytes n e' := n ≤ bytes.length ∧ e' = ⟨e.unread, e.written ++ bytes.take n⟩
  recv e waitAll want chunk e' := e.unread = chunk ++ e'.unread ∧ e'.written = e.written ∧
    chunk.length ≤ want ∧ (Full waitAll want chunk ∨ e'.unread = [])

theorem stream_sends (e : Stream) (bytes : List UInt8) : ∃ n e', stream.send e bytes n e' :=
  ⟨0, _, Nat.zero_le _, rfl⟩

theorem stream_recvs (e : Stream) (waitAll : Bool) (want : Nat) : ∃ chunk e', stream.recv e waitAll want chunk e' := by
  refine ⟨e.unread.take want, ⟨e.unread.drop want, e.written⟩, (List.take_append_drop ..).symm, rfl,
    List.length_take_le .., ?_⟩
  by_cases enough : want ≤ e.unread.length
  · left
    have length : (e.unread.take want).length = want := List.length_take_of_le enough
    unfold Full
    split
    · exact length
    · by_cases none : want = 0
      · exact Or.inl none
      · refine Or.inr fun empty => none ?_
        rw [← length, empty, List.length_nil]
  · exact Or.inr (List.drop_eq_nil_of_le (by omega))

/-- Two specifications of one program hold together. -/
theorem Meets.and {ε α : Type} {W : World ε} {x : Proc α} {e : ε} {P Q : Except String α → ε → Prop}
    (left : Meets W x e P) (right : Meets W x e Q) : Meets W x e fun r e' => P r e' ∧ Q r e' := by
  induction x generalizing e with
  | ret a => exact ⟨left, right⟩
  | throw message => exact ⟨left, right⟩
  | send bytes next ih => exact ⟨left.1, fun n e' answers => ih n (left.2 n e' answers) (right.2 n e' answers)⟩
  | recv waitAll want next ih =>
    exact ⟨left.1, fun chunk e' answers => ih chunk (left.2 chunk e' answers) (right.2 chunk e' answers)⟩

/-- What has been written to a stream stays written. -/
theorem written_prefix {α : Type} {here there : Proc α × Stream} (run : Relation.ReflTransGen (Turn stream) here there) :
    here.2.written <+: there.2.written := by
  induction run with
  | refl => exact List.prefix_refl _
  | tail _ turn ih =>
    refine ih.trans ?_
    cases turn with
    | send answers =>
      obtain ⟨-, rfl⟩ := answers
      exact List.prefix_append ..
    | recv answers => exact ⟨[], (List.append_nil _).trans answers.2.1.symm⟩

/-- What a program has written at its end bounds what it writes on the way. -/
theorem Meets.written_prefix {α : Type} {x : Proc α} {e : Stream} {Q : Except String α → Stream → Prop}
    {total : List UInt8} (meets : Meets stream x e Q) (bounded : ∀ r e', Q r e' → e'.written <+: total)
    {there : Proc α × Stream} (run : Relation.ReflTransGen (Turn stream) (x, e) there) : there.2.written <+: total := by
  obtain ⟨x', e', r, rest, -, post⟩ := (meets.reach run).exists_end
  exact (Process.written_prefix rest).trans (bounded r e' post)

end Process
