import Mathlib.Algebra.Order.BigOperators.Group.Finset
import Mathlib.Algebra.Order.BigOperators.Group.Multiset
import SecureExchange.Library.Interleaving

namespace Bank

/-- What a bank reads off a transfer. -/
structure Terms (ι τ : Type) where
  payer : τ → ι → Prop
  payee : τ → ι → Prop
  amount : τ → Nat
  number : τ → Nat

/-- The accounts of a bank: what each holds, how many transfers it has made,
and the transfers that nobody has collected yet. -/
structure Books (ι τ : Type) where
  funds : ι → Nat
  made : ι → Nat
  pending : Multiset τ

inductive Deed (ι τ : Type) where
  | paid (i : ι) (t : τ)
  | collected (i : ι) (t : τ)

section Bank
variable {ι τ : Type} [DecidableEq ι]

/-- A transfer is paid out of its payer's account, under the payer's next
number, and waits until its payee collects it. -/
inductive Step (terms : Terms ι τ) : Books ι τ → Deed ι τ → Books ι τ → Prop
  | pay {books : Books ι τ} {i : ι} {t : τ} (own : terms.payer t i) (next : terms.number t = books.made i)
      (positive : 0 < terms.amount t) (covered : terms.amount t ≤ books.funds i) :
      Step terms books (.paid i t)
        ⟨Function.update books.funds i (books.funds i - terms.amount t),
          Function.update books.made i (books.made i + 1), t ::ₘ books.pending⟩
  | collect {books : Books ι τ} {i : ι} {t : τ} {rest : Multiset τ} (own : terms.payee t i)
      (waits : books.pending = t ::ₘ rest) :
      Step terms books (.collected i t)
        ⟨Function.update books.funds i (books.funds i + terms.amount t), books.made, rest⟩

/-- The books after a list of deeds. -/
inductive Trace (terms : Terms ι τ) (opened : Books ι τ) : List (Deed ι τ) → Books ι τ → Prop
  | start : Trace terms opened [] opened
  | next {deeds : List (Deed ι τ)} {books books' : Books ι τ} {deed : Deed ι τ}
      (earlier : Trace terms opened deeds books) (step : Step terms books deed books') :
      Trace terms opened (deeds ++ [deed]) books'

variable [Fintype ι] {terms : Terms ι τ} {books books' opened : Books ι τ} {deed : Deed ι τ}
  {deeds : List (Deed ι τ)}

/-- All money there is: in the accounts and on its way. -/
def Books.total (terms : Terms ι τ) (books : Books ι τ) : Nat :=
  (∑ i, books.funds i) + (books.pending.map terms.amount).sum

theorem Step.total (step : Step terms books deed books') : books'.total terms = books.total terms := by
  cases step with
  | @pay i t own next positive covered =>
    have sum := Reactive.sum_parts_update (fun held => held) books.funds i (books.funds i - terms.amount t)
    simp only [Books.total]
    rw [Multiset.map_cons, Multiset.sum_cons]
    omega
  | @collect i t rest own waits =>
    have sum := Reactive.sum_parts_update (fun held => held) books.funds i (books.funds i + terms.amount t)
    have waiting : (books.pending.map terms.amount).sum = terms.amount t + (rest.map terms.amount).sum := by
      rw [waits, Multiset.map_cons, Multiset.sum_cons]
    simp only [Books.total]
    omega

theorem Trace.total (trace : Trace terms opened deeds books) : books.total terms = opened.total terms := by
  induction trace with
  | start => rfl
  | next earlier step ih => exact step.total.trans ih

/-- Whoever collects a waiting transfer never holds more than all there was. -/
theorem Trace.collect_le {t : τ} (trace : Trace terms opened deeds books) (waits : t ∈ books.pending) (i : ι) :
    books.funds i + terms.amount t ≤ opened.total terms := by
  have account := Finset.single_le_sum (f := books.funds) (fun j _ => Nat.zero_le _) (Finset.mem_univ i)
  have waiting := Multiset.single_le_sum (fun _ _ => Nat.zero_le _) _ (Multiset.mem_map_of_mem terms.amount waits)
  rw [← trace.total, Books.total]
  omega

end Bank
end Bank
