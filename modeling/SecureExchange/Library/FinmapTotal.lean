import Mathlib.Algebra.BigOperators.Group.Multiset.Basic
import Mathlib.Algebra.Order.Monoid.Unbundled.Basic
import Mathlib.Data.Finmap

namespace Finmap

variable {α β : Type} [DecidableEq α]

/-- The weights of all values of a finite map added up. -/
def total (w : β → Nat) (m : Finmap fun _ : α => β) : Nat :=
  (m.entries.map fun e => w e.2).sum

/-- The weight of one entry, nothing when it is missing. -/
def weight (w : β → Nat) (m : Finmap fun _ : α => β) (a : α) : Nat :=
  (m.lookup a).elim 0 w

variable {w : β → Nat} {m : Finmap fun _ : α => β} {a c : α} {b : β}

theorem total_insert_of_notMem (missing : a ∉ m) : total w (m.insert a b) = w b + total w m := by
  rw [total, entries_insert_of_notMem missing, Multiset.map_cons, Multiset.sum_cons]
  rfl

theorem insert_erase_of_lookup (found : m.lookup a = some b) : (m.erase a).insert a b = m := by
  refine ext_lookup fun k => ?_
  by_cases same : k = a
  · subst same
    rw [lookup_insert, found]
  · rw [lookup_insert_of_ne _ same, lookup_erase_ne same]

/-- One entry set apart from the rest. -/
theorem total_eq_weight_add (w : β → Nat) (m : Finmap fun _ : α => β) (a : α) :
    total w m = weight w m a + total w (m.erase a) := by
  cases found : m.lookup a with
  | none =>
    have same : m.erase a = m := by
      refine ext_lookup fun k => ?_
      by_cases here : k = a
      · subst here
        rw [lookup_erase, found]
      · rw [lookup_erase_ne here]
    rw [weight, found, same, Option.elim_none, Nat.zero_add]
  | some b =>
    have whole := total_insert_of_notMem (w := w) (b := b) (notMem_erase_self (a := a) (s := m))
    rw [insert_erase_of_lookup found] at whole
    rw [weight, found, whole, Option.elim_some]

/-- Writing an entry changes the total by as much as it changes the entry. -/
theorem total_insert (w : β → Nat) (m : Finmap fun _ : α => β) (a : α) (b : β) :
    total w (m.insert a b) + weight w m a = total w m + w b := by
  have rest : (m.insert a b).erase a = m.erase a := by
    refine ext_lookup fun k => ?_
    by_cases same : k = a
    · subst same
      rw [lookup_erase, lookup_erase]
    · rw [lookup_erase_ne same, lookup_erase_ne same, lookup_insert_of_ne _ same]
  have written := total_eq_weight_add w (m.insert a b) a
  have before := total_eq_weight_add w m a
  rw [rest, weight, lookup_insert, Option.elim_some] at written
  omega

theorem weight_le_total (w : β → Nat) (m : Finmap fun _ : α => β) (a : α) : weight w m a ≤ total w m := by
  have split := total_eq_weight_add w m a
  omega

theorem weights_le_total (w : β → Nat) (m : Finmap fun _ : α => β) (different : c ≠ a) :
    weight w m a + weight w m c ≤ total w m := by
  have split := total_eq_weight_add w m a
  have inside := weight_le_total w (m.erase a) c
  rw [weight, lookup_erase_ne different, ← weight] at inside
  omega

end Finmap
