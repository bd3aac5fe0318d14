import Mathlib.Order.GameAdd
import SecureExchange.Library.Process

namespace Process

inductive Side where
  | left
  | right
deriving DecidableEq

def Side.other : Side → Side
  | .left => .right
  | .right => .left

@[simp] theorem Side.other_other (me : Side) : me.other.other = me := by cases me <;> rfl

@[simp] theorem Side.other_ne (me : Side) : me.other ≠ me := by cases me <;> simp [other]

/-- The bytes of a conversation in order, each with the side that sends it. -/
abbrev Script := List (Side × UInt8)

def spoken (me : Side) (bytes : List UInt8) : Script := bytes.map fun b => (me, b)

@[simp] theorem spoken_nil (me : Side) : spoken me [] = [] := rfl

@[simp] theorem spoken_cons (me : Side) (b : UInt8) (bytes : List UInt8) :
    spoken me (b :: bytes) = (me, b) :: spoken me bytes := rfl

@[simp] theorem spoken_append (me : Side) (left right : List UInt8) :
    spoken me (left ++ right) = spoken me left ++ spoken me right := List.map_append

@[simp] theorem length_spoken (me : Side) (bytes : List UInt8) : (spoken me bytes).length = bytes.length :=
  List.length_map ..

@[simp] theorem spoken_eq_nil {me : Side} {bytes : List UInt8} : spoken me bytes = [] ↔ bytes = [] := List.map_eq_nil_iff

theorem spoken_inj {me : Side} {left right : List UInt8} (same : spoken me left = spoken me right) : left = right :=
  List.map_injective_iff.mpr (fun _ _ pair => (Prod.mk.inj pair).2) same

/-- Two sides cannot both speak first. -/
theorem spoken_clash {me : Side} {mine theirs : List UInt8} {left right : Script}
    (same : spoken me mine ++ left = spoken me.other theirs ++ right) : mine = [] ∨ theirs = [] := by
  cases mine with
  | nil => exact Or.inl rfl
  | cons b rest =>
    cases theirs with
    | nil => exact Or.inr rfl
    | cons c more =>
      simp only [spoken_cons, List.cons_append, List.cons.injEq, Prod.mk.injEq] at same
      exact absurd same.1.1.symm me.other_ne

/-- The beginning of what one side says. -/
theorem spoken_split {me : Side} {bytes chunk : List UInt8} {rest rest' : Script}
    (within : chunk.length ≤ bytes.length) (same : spoken me bytes ++ rest = spoken me chunk ++ rest') :
    ∃ later, bytes = chunk ++ later ∧ rest' = spoken me later ++ rest := by
  rw [← List.take_append_drop chunk.length bytes, spoken_append, List.append_assoc] at same
  obtain ⟨start, later⟩ := List.append_inj same (by rw [length_spoken, length_spoken, List.length_take_of_le within])
  have whole := (List.take_append_drop chunk.length bytes).symm
  rw [spoken_inj start] at whole
  exact ⟨_, whole, later.symm⟩

/-- What a script has for a `recv`: at least something, so that the call
does not take the silence of the other side for its end. -/
def Ready (waitAll : Bool) (want : Nat) (chunk : List UInt8) : Prop :=
  if waitAll then chunk.length = want else chunk ≠ []

theorem Ready.full {waitAll : Bool} {want : Nat} {chunk : List UInt8} (ready : Ready waitAll want chunk) :
    Full waitAll want chunk := by
  cases waitAll with
  | false => exact Or.inr ready
  | true => exact ready

/-- Whatever `recv` returns instead of what is ready is ready as well. -/
theorem Ready.of_full {waitAll : Bool} {want : Nat} {first chunk : List UInt8} (ready : Ready waitAll want first)
    (within : first.length ≤ want) (full : Full waitAll want chunk) : Ready waitAll want chunk := by
  cases waitAll with
  | false =>
    rcases full with none | some
    · exact absurd (List.eq_nil_of_length_eq_zero (by omega)) ready
    · exact some
  | true => exact full

theorem Ready.of_le {waitAll : Bool} {want : Nat} {first chunk : List UInt8} (ready : Ready waitAll want first)
    (more : first.length ≤ chunk.length) (within : chunk.length ≤ want) : Ready waitAll want chunk := by
  cases waitAll with
  | false => exact List.ne_nil_of_length_pos (Nat.lt_of_lt_of_le (List.length_pos_of_ne_nil ready) more)
  | true => exact Nat.le_antisymm within (ready.symm.trans_le more)

/-- A peer that speaks its part of a script when its turn comes. -/
def script (me : Side) : World Script where
  send e bytes n e' := n = bytes.length ∧ e = spoken me bytes ++ e'
  recv e waitAll want chunk e' := e = spoken me.other chunk ++ e' ∧ chunk.length ≤ want ∧ Ready waitAll want chunk

/-- A script is over and its program has ended with the result. -/
def Ends {α : Type} (a : Except String α) (r : Except String α) (rest : Script) : Prop := r = a ∧ rest = []

/-- Two programs and what is under way between them. -/
structure Link (α β : Type) where
  left : Proc α
  right : Proc β
  toLeft : List UInt8
  toRight : List UInt8

/-- A system call of one side of a link. A `send` hands over all its bytes;
a `recv` waits until it can be served, or until the other side is gone. -/
inductive Move {α : Type} (closed : Prop) :
    Proc α → List UInt8 → List UInt8 → Proc α → List UInt8 → List UInt8 → Prop
  | send {bytes next inbox outbox} :
      Move closed (.send bytes next) inbox outbox (next bytes.length) inbox (outbox ++ bytes)
  | recv {waitAll want next chunk inbox outbox} (within : chunk.length ≤ want)
      (served : Full waitAll want chunk ∨ closed ∧ inbox = []) :
      Move closed (.recv waitAll want next) (chunk ++ inbox) outbox (next chunk) inbox outbox

def Able {α : Type} (closed : Prop) (x : Proc α) (inbox outbox : List UInt8) : Prop :=
  ∃ x' inbox' outbox', Move closed x inbox outbox x' inbox' outbox'

/-- A side waits in a `recv` that cannot return. -/
def Blocked {α : Type} (closed : Prop) (x : Proc α) (inbox outbox : List UInt8) : Prop :=
  (∃ waitAll want next, x = .recv waitAll want next) ∧ ¬ Able closed x inbox outbox

/-- The program left after one system call. -/
inductive Proc.Rest {α : Type} : Proc α → Proc α → Prop
  | send {bytes next n} : Rest (next n) (.send bytes next)
  | recv {waitAll want next chunk} : Rest (next chunk) (.recv waitAll want next)

theorem Proc.rest_acc {α : Type} (x : Proc α) : Acc Proc.Rest x := by
  induction x with
  | ret | throw => exact ⟨_, fun _ rest => by cases rest⟩
  | send bytes next ih => exact ⟨_, fun _ rest => by cases rest; exact ih _⟩
  | recv waitAll want next ih => exact ⟨_, fun _ rest => by cases rest; exact ih _⟩

theorem Turn.rest {ε α : Type} {W : World ε} {x x' : Proc α} {e e' : ε} (turn : Turn W (x, e) (x', e')) :
    Proc.Rest x' x := by
  cases turn with
  | send => exact .send
  | recv => exact .recv

/-- No program runs forever, whatever the outside answers. -/
theorem turns_finite {ε α : Type} (W : World ε) (x : Proc α) (e : ε) :
    Acc (fun after before => Turn W before after) (x, e) :=
  Subrelation.accessible (fun {_ _} turn => Turn.rest turn) (InvImage.accessible Prod.fst x.rest_acc)

/-- Every run is finite, and one that cannot go on has ended with a result
and in a state that meet the postcondition. -/
structure Settles {ε α : Type} (W : World ε) (x : Proc α) (e : ε) (Q : Except String α → ε → Prop) : Prop where
  finite : Acc (fun after before => Turn W before after) (x, e)
  ends : ∀ x' e', Relation.ReflTransGen (Turn W) (x, e) (x', e') →
    (∃ there, Turn W (x', e') there) ∨ ∃ r, x'.outcome = some r ∧ Q r e'

theorem Meets.settles {ε α : Type} {W : World ε} {x : Proc α} {e : ε} {Q : Except String α → ε → Prop}
    (meets : Meets W x e Q) : Settles W x e Q := ⟨turns_finite W x e, fun _ _ reach => meets.run reach⟩

/-- A program that has a specification ends somewhere, and where it settles
that end meets both postconditions. -/
theorem Settles.exists_end {ε α : Type} {W : World ε} {x : Proc α} {e : ε} {P Q : Except String α → ε → Prop}
    (settles : Settles W x e Q) (meets : Meets W x e P) : ∃ r e', P r e' ∧ Q r e' := by
  obtain ⟨x', e', r, run, ended, post⟩ := meets.exists_end
  rcases settles.ends x' e' run with ⟨there, turn⟩ | ⟨r', ended', post'⟩
  · cases turn with
    | send | recv => cases ended
  · cases ended.symm.trans ended'
    exact ⟨r, e', post, post'⟩

theorem Move.rest {α : Type} {closed : Prop} {x x' : Proc α} {inbox outbox inbox' outbox' : List UInt8}
    (move : Move closed x inbox outbox x' inbox' outbox') : Proc.Rest x' x := by
  cases move with
  | send => exact .send
  | recv => exact .recv

namespace Link
variable {α β : Type}

inductive Step : Link α β → Link α β → Prop
  | left {x x' : Proc α} {y : Proc β} {inbox outbox inbox' outbox'}
      (move : Move (y.outcome.isSome = true) x inbox outbox x' inbox' outbox') :
      Step ⟨x, y, inbox, outbox⟩ ⟨x', y, inbox', outbox'⟩
  | right {x : Proc α} {y y' : Proc β} {inbox outbox inbox' outbox'}
      (move : Move (x.outcome.isSome = true) y inbox outbox y' inbox' outbox') :
      Step ⟨x, y, outbox, inbox⟩ ⟨x, y', outbox', inbox'⟩

/-- Both sides wait for each other. -/
def Deadlocked (l : Link α β) : Prop :=
  Blocked (l.right.outcome.isSome = true) l.left l.toLeft l.toRight ∧
    Blocked (l.left.outcome.isSome = true) l.right l.toRight l.toLeft

/-- Every run of a link is finite, never deadlocks, and ends with the given results. -/
structure Concludes (l : Link α β) (a : Except String α) (b : Except String β) : Prop where
  finite : Acc (fun after before => Step before after) l
  unblocked : ∀ m, Relation.ReflTransGen Step l m → ¬ m.Deadlocked
  live : ∀ m, Relation.ReflTransGen Step l m →
    (∃ m', Step m m') ∨ m.left.outcome = some a ∧ m.right.outcome = some b

/-- Each step leaves one side with less of its program and the other as it was. -/
theorem finite (l : Link α β) : Acc (fun after before => Step before after) l := by
  have programs := l.left.rest_acc.prod_gameAdd l.right.rest_acc
  refine Subrelation.accessible (fun step => ?_) (InvImage.accessible (fun m : Link α β => (m.left, m.right)) programs)
  cases step with
  | left move => exact .fst move.rest
  | right move => exact .snd move.rest

/-- The scripts of two sides differ by what is under way: the side that is
ahead has sent what the other has yet to read. -/
def Apart (me : Side) (mine theirs : Script) (inbox outbox : List UInt8) : Prop :=
  theirs = spoken me outbox ++ mine ∧ inbox = [] ∨ mine = spoken me.other inbox ++ theirs ∧ outbox = []

theorem Apart.symm {me : Side} {mine theirs : Script} {inbox outbox : List UInt8}
    (apart : Apart me mine theirs inbox outbox) : Apart me.other theirs mine outbox inbox := by
  rcases apart with ⟨ahead, empty⟩ | ⟨behind, empty⟩
  · exact Or.inr ⟨by rw [Side.other_other]; exact ahead, empty⟩
  · exact Or.inl ⟨behind, empty⟩

/-- A system call of one side is one its script provides for. -/
theorem Apart.move {me : Side} {mine theirs : Script} {x x' : Proc α} {inbox outbox inbox' outbox' : List UInt8}
    {closed : Prop} {Q : Except String α → Script → Prop} (apart : Apart me mine theirs inbox outbox)
    (meets : Meets (script me) x mine Q) (gone : closed → theirs = [])
    (move : Move closed x inbox outbox x' inbox' outbox') :
    ∃ mine', Meets (script me) x' mine' Q ∧ Apart me mine' theirs inbox' outbox' := by
  cases move with
  | @send bytes next =>
    obtain ⟨⟨n, rest, count, split⟩, after⟩ := meets
    refine ⟨rest, after _ _ ⟨rfl, split⟩, ?_⟩
    rcases apart with ⟨ahead, empty⟩ | ⟨behind, empty⟩
    · left
      rw [ahead, split, spoken_append, List.append_assoc]
      exact ⟨rfl, empty⟩
    · subst empty
      rcases spoken_clash (split.symm.trans behind) with silent | silent
      · subst silent
        exact Or.inr ⟨split.symm.trans behind, rfl⟩
      · subst silent
        exact Or.inl ⟨behind.symm.trans split, rfl⟩
  | @recv waitAll want next chunk _ _ within served =>
    obtain ⟨⟨first, rest, split, small, ready⟩, after⟩ := meets
    rcases apart with ⟨ahead, empty⟩ | ⟨behind, empty⟩
    · -- nothing is under way to this side, so the call reads nothing
      obtain ⟨rfl, rfl⟩ := List.append_eq_nil_iff.mp empty
      have nothing : Ready waitAll want [] := by
        rcases served with full | ⟨ended, -⟩
        · exact ready.of_full small full
        · have silent : mine = [] := (List.append_eq_nil_iff.mp (ahead.symm.trans (gone ended))).2
          have short : first = [] := spoken_eq_nil.mp (List.append_eq_nil_iff.mp (split.symm.trans silent)).1
          exact short ▸ ready
      exact ⟨mine, after _ _ ⟨rfl, Nat.zero_le _, nothing⟩, Or.inl ⟨ahead, rfl⟩⟩
    · rw [spoken_append, List.append_assoc] at behind
      have enough : Ready waitAll want chunk := by
        rcases served with full | ⟨ended, rfl⟩
        · exact ready.of_full small full
        · refine ready.of_le ?_ within
          have lengths := congrArg List.length (split.symm.trans behind)
          simp only [gone ended, spoken_nil, List.append_nil, List.length_append, length_spoken] at lengths
          omega
      exact ⟨_, after _ _ ⟨behind, within, enough⟩, Or.inr ⟨rfl, empty⟩⟩

/-- A side whose script does not have the other side speak next never waits. -/
theorem able_of_silent {me : Side} {mine : Script} {x : Proc α} {Q : Except String α → Script → Prop}
    (meets : Meets (script me) x mine Q) (silent : ∀ chunk rest, mine = spoken me.other chunk ++ rest → chunk = [])
    (closed : Prop) (inbox outbox : List UInt8) : (∃ r, x.outcome = some r) ∨ Able closed x inbox outbox := by
  cases x with
  | ret | throw => exact Or.inl ⟨_, rfl⟩
  | send bytes next => exact Or.inr ⟨_, _, _, .send⟩
  | recv waitAll want next =>
    obtain ⟨⟨first, rest, split, small, ready⟩, -⟩ := meets
    cases silent first rest split
    exact Or.inr ⟨_, _, _, .recv small (Or.inl ready.full)⟩

/-- The side that is behind can go on, unless it waits for something the
other side has yet to say. -/
theorem able_of_behind {me : Side} {theirs : Script} {x : Proc α} {inbox : List UInt8}
    {Q : Except String α → Script → Prop} (meets : Meets (script me) x (spoken me.other inbox ++ theirs) Q)
    (closed : Prop) (outbox : List UInt8) : (∃ r, x.outcome = some r) ∨ Able closed x inbox outbox ∨
      ∃ awaited rest, awaited ≠ [] ∧ theirs = spoken me.other awaited ++ rest := by
  cases x with
  | ret | throw => exact Or.inl ⟨_, rfl⟩
  | send bytes next => exact Or.inr (Or.inl ⟨_, _, _, .send⟩)
  | recv waitAll want next =>
    obtain ⟨⟨first, rest, split, small, ready⟩, -⟩ := meets
    right
    by_cases arrived : first.length ≤ inbox.length
    · obtain ⟨later, rfl, -⟩ := spoken_split arrived split
      exact Or.inl ⟨_, _, _, .recv small (Or.inl ready.full)⟩
    · obtain ⟨awaited, rfl, theirsSplit⟩ := spoken_split (Nat.le_of_not_le arrived) split.symm
      refine Or.inr ⟨awaited, rest, fun none => arrived ?_, theirsSplit⟩
      rw [none, List.append_nil]

/-- While the scripts of two sides differ by what is under way, one of them
can go on, or both have ended. -/
theorem able_or_ended (me : Side) {theirs : Script} {x : Proc α} {y : Proc β} {inbox outbox : List UInt8}
    {a : Except String α} {b : Except String β}
    (mineMeets : Meets (script me) x (spoken me.other inbox ++ theirs) (Ends a))
    (theirsMeets : Meets (script me.other) y theirs (Ends b)) :
    (x.outcome = some a ∧ y.outcome = some b) ∨ Able (y.outcome.isSome = true) x inbox outbox ∨
      Able (x.outcome.isSome = true) y outbox inbox := by
  rcases able_of_behind mineMeets (y.outcome.isSome = true) outbox with
    ⟨r, ended⟩ | able | ⟨awaited, rest, some, theirsSplit⟩
  · obtain ⟨rfl, silent⟩ := mineMeets.outcome ended
    obtain ⟨-, rfl⟩ := List.append_eq_nil_iff.mp silent
    rcases able_of_silent theirsMeets (fun chunk rest split => spoken_eq_nil.mp (List.append_eq_nil_iff.mp split.symm).1)
      (x.outcome.isSome = true) outbox inbox with ⟨q, theirsEnded⟩ | able
    · obtain ⟨rfl, -⟩ := theirsMeets.outcome theirsEnded
      exact Or.inl ⟨ended, theirsEnded⟩
    · exact Or.inr (Or.inr able)
  · exact Or.inr (Or.inl able)
  · right; right
    have listens : ∀ chunk rest, theirs = spoken me.other.other chunk ++ rest → chunk = [] := fun chunk more split =>
      (spoken_clash (theirsSplit.symm.trans split)).resolve_left some
    rcases able_of_silent theirsMeets listens (x.outcome.isSome = true) outbox inbox with ⟨q, theirsEnded⟩ | able
    · obtain ⟨-, rfl⟩ := theirsMeets.outcome theirsEnded
      exact absurd (spoken_eq_nil.mp (List.append_eq_nil_iff.mp theirsSplit.symm).1) some
    · exact able

/-- Both sides keep to their scripts. -/
def Keeps (a : Except String α) (b : Except String β) (l : Link α β) : Prop :=
  ∃ mine theirs, Meets (script .left) l.left mine (Ends a) ∧ Meets (script .right) l.right theirs (Ends b) ∧
    Apart .left mine theirs l.toLeft l.toRight

section Keeping
variable {a : Except String α} {b : Except String β} {l m : Link α β}

theorem Keeps.step (keeps : Keeps a b l) (step : Step l m) : Keeps a b m := by
  obtain ⟨mine, theirs, mineMeets, theirsMeets, apart⟩ := keeps
  cases step with
  | @left x x' y inbox outbox inbox' outbox' move =>
    have gone : y.outcome.isSome = true → theirs = [] := fun ended => by
      obtain ⟨r, outcome⟩ := Option.isSome_iff_exists.mp ended
      exact (theirsMeets.outcome outcome).2
    obtain ⟨mine', meets', apart'⟩ := apart.move mineMeets gone move
    exact ⟨mine', theirs, meets', theirsMeets, apart'⟩
  | @right x y y' inbox outbox inbox' outbox' move =>
    have gone : x.outcome.isSome = true → mine = [] := fun ended => by
      obtain ⟨r, outcome⟩ := Option.isSome_iff_exists.mp ended
      exact (mineMeets.outcome outcome).2
    obtain ⟨theirs', meets', apart'⟩ := apart.symm.move theirsMeets gone move
    exact ⟨mine, theirs', mineMeets, meets', apart'.symm⟩

theorem Keeps.run (keeps : Keeps a b l) (run : Relation.ReflTransGen Step l m) : Keeps a b m := by
  induction run with
  | refl => exact keeps
  | tail _ step ih => exact ih.step step

theorem Keeps.live (keeps : Keeps a b l) :
    (l.left.outcome = some a ∧ l.right.outcome = some b) ∨ Able (l.right.outcome.isSome = true) l.left l.toLeft l.toRight ∨
      Able (l.left.outcome.isSome = true) l.right l.toRight l.toLeft := by
  obtain ⟨mine, theirs, mineMeets, theirsMeets, ⟨ahead, -⟩ | ⟨behind, -⟩⟩ := keeps
  · subst ahead
    rcases able_or_ended .right theirsMeets mineMeets with ⟨right, left⟩ | able | able
    · exact Or.inl ⟨left, right⟩
    · exact Or.inr (Or.inr able)
    · exact Or.inr (Or.inl able)
  · subst behind
    exact able_or_ended .left mineMeets theirsMeets

/-- Two programs that keep to the two parts of one script finish it, in
every order of their system calls and with every cut of their reads. -/
theorem concludes {x : Proc α} {y : Proc β} {whole : Script} (left : Meets (script .left) x whole (Ends a))
    (right : Meets (script .right) y whole (Ends b)) : Concludes ⟨x, y, [], []⟩ a b := by
  have keeps : Keeps a b ⟨x, y, [], []⟩ := ⟨whole, whole, left, right, Or.inl ⟨rfl, rfl⟩⟩
  refine ⟨finite _, fun m run dead => ?_, fun m run => ?_⟩
  · rcases (keeps.run run).live with ⟨ended, -⟩ | able | able
    · obtain ⟨⟨⟨waitAll, want, next, waits⟩, -⟩, -⟩ := dead
      rw [waits] at ended
      cases ended
    · exact dead.1.2 able
    · exact dead.2.2 able
  · rcases (keeps.run run).live with ended | ⟨x', inbox, outbox, move⟩ | ⟨y', inbox, outbox, move⟩
    · exact Or.inr ended
    · exact Or.inl ⟨_, .left move⟩
    · exact Or.inl ⟨_, .right move⟩

end Keeping

theorem exists_final {l : Link α β} (finite : Acc (fun after before => Step before after) l) :
    ∃ m, Relation.ReflTransGen Step l m ∧ ¬ ∃ m', Step m m' := by
  induction finite with
  | intro l _ ih =>
    by_cases going : ∃ m, Step l m
    · obtain ⟨m, step⟩ := going
      obtain ⟨last, run, final⟩ := ih m step
      exact ⟨last, .head step run, final⟩
    · exact ⟨l, .refl, going⟩

/-- A link concludes in one way only. -/
theorem Concludes.unique {l : Link α β} {a a' : Except String α} {b b' : Except String β} (one : Concludes l a b)
    (other : Concludes l a' b') : a = a' ∧ b = b' := by
  obtain ⟨m, run, final⟩ := exists_final one.finite
  obtain ⟨left, right⟩ := (one.live m run).resolve_left final
  obtain ⟨left', right'⟩ := (other.live m run).resolve_left final
  exact ⟨Option.some.inj (left.symm.trans left'), Option.some.inj (right.symm.trans right')⟩

end Link
end Process
