import Mathlib.Data.Finmap

namespace Finmap
variable {α : Type} {β : α → Type} [DecidableEq α]

/-- Pairs put into an empty map in order; a later one replaces an earlier
one of the same key. -/
def collect (pairs : List (Sigma β)) : Finmap β := pairs.foldl (fun map pair => map.insert pair.1 pair.2) ∅

/-- Pairs with keys of their own add themselves to a map. -/
theorem entries_foldl_insert {pairs : List (Sigma β)} (distinct : pairs.NodupKeys) {map : Finmap β}
    (new : ∀ pair ∈ pairs, pair.1 ∉ map) :
    (pairs.foldl (fun map pair => map.insert pair.1 pair.2) map).entries = (pairs : Multiset (Sigma β)) + map.entries := by
  induction pairs generalizing map with
  | nil => rw [List.foldl_nil, Multiset.coe_nil, zero_add]
  | cons pair rest ih =>
    obtain ⟨single, later⟩ := List.nodupKeys_cons.mp distinct
    have missing := new pair List.mem_cons_self
    have others : ∀ other ∈ rest, other.1 ∉ map.insert pair.1 pair.2 := by
      intro other member
      rw [mem_insert, not_or]
      exact ⟨fun same => single (same ▸ List.mem_keys_of_mem member), new other (List.mem_cons_of_mem _ member)⟩
    rw [List.foldl_cons, ih later others, entries_insert_of_notMem missing, ← Multiset.cons_coe, Multiset.cons_add,
      Multiset.add_cons]

/-- Collecting pairs with keys of their own drops none of them. -/
theorem entries_collect {pairs : List (Sigma β)} (distinct : pairs.NodupKeys) :
    (collect pairs).entries = (pairs : Multiset (Sigma β)) := by
  have empty : (∅ : Finmap β).entries = 0 := rfl
  rw [collect, entries_foldl_insert distinct fun _ _ => notMem_empty, empty, add_zero]

end Finmap
