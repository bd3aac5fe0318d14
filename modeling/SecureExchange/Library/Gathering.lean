import Mathlib.Data.List.Perm.Basic
import Mathlib.Data.Set.Defs

/-- Inputs of a kind `S` that may come in any order and any number of times:
they pass each other, and one that has been taken changes nothing more. -/
structure Gathers {σ α : Type*} (f : σ → α → σ) (S : Set α) : Prop where
  comm : ∀ s, ∀ a ∈ S, ∀ b ∈ S, f (f s a) b = f (f s b) a
  again : ∀ s, ∀ a ∈ S, f (f s a) a = f s a

namespace Gathers
variable {σ α : Type*} {f : σ → α → σ} {S : Set α} {xs ys : List α} {a : α}

theorem push (gathers : Gathers f S) (inside : ∀ b ∈ xs, b ∈ S) (known : a ∈ S) (s : σ) :
    f (xs.foldl f s) a = xs.foldl f (f s a) := by
  induction xs generalizing s with
  | nil => rfl
  | cons b rest ih =>
    rw [List.forall_mem_cons] at inside
    rw [List.foldl_cons, List.foldl_cons, ih inside.2, gathers.comm s b inside.1 a known]

/-- An input that is among those taken changes nothing more. -/
theorem foldl_again (gathers : Gathers f S) (inside : ∀ b ∈ xs, b ∈ S) (member : a ∈ xs) (s : σ) :
    f (xs.foldl f s) a = xs.foldl f s := by
  induction xs generalizing s with
  | nil => cases member
  | cons b rest ih =>
    rw [List.foldl_cons]
    rcases List.mem_cons.mp member with rfl | later
    · have known := inside a List.mem_cons_self
      rw [gathers.push (List.forall_mem_cons.mp inside).2 known, gathers.again s a known]
    · exact ih (List.forall_mem_cons.mp inside).2 later _

theorem foldl_subset (gathers : Gathers f S) (inside : ∀ b ∈ xs, b ∈ S) (taken : ys ⊆ xs) (s : σ) :
    ys.foldl f (xs.foldl f s) = xs.foldl f s := by
  induction ys with
  | nil => rfl
  | cons b rest ih =>
    rw [List.foldl_cons, gathers.foldl_again inside (taken List.mem_cons_self)]
    exact ih fun _ member => taken (List.mem_cons_of_mem _ member)

/-- Only the set of the inputs matters. -/
theorem foldl_eq (gathers : Gathers f S) (inside : ∀ b ∈ xs, b ∈ S) (same : ∀ b, b ∈ xs ↔ b ∈ ys) (s : σ) :
    xs.foldl f s = ys.foldl f s := by
  have insideToo : ∀ b ∈ ys, b ∈ S := fun b member => inside b ((same b).mpr member)
  have comm : ∀ a ∈ xs ++ ys, ∀ b ∈ xs ++ ys, ∀ z, f (f z a) b = f (f z b) a := by
    have all := List.forall_mem_append.mpr ⟨inside, insideToo⟩
    exact fun a left b right z => gathers.comm z a (all a left) b (all b right)
  calc xs.foldl f s = (xs ++ ys).foldl f s := by
        rw [List.foldl_append, gathers.foldl_subset inside fun b member => (same b).mpr member]
    _ = (ys ++ xs).foldl f s := List.perm_append_comm.foldl_eq' comm s
    _ = ys.foldl f s := by
        rw [List.foldl_append, gathers.foldl_subset insideToo fun b member => (same b).mp member]

end Gathers
