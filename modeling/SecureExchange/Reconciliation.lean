import Mathlib.Algebra.BigOperators.ModEq
import SecureExchange.Quiescence
import SecureExchange.StateHistory

namespace SecureExchange
open Reactive

theorem supply_plus_modEq (l : Ledger) (a : Address) (amount : UInt64) :
    (l.plus a amount).supply ≡ l.supply + amount.toNat [MOD 2 ^ 64] := by
  have whole := l.supply_set a (l.entryPlus a amount)
  have entry := l.funds_plus_self a amount
  rw [Ledger.plus, Ledger.funds_of_account (Ledger.account_set_self ..)] at entry
  rw [Ledger.plus, Nat.ModEq]
  omega

@[simp] theorem paymentsTo_append (a : Address) (left right : List SignedTransaction) :
    paymentsTo a (left ++ right) = paymentsTo a left ++ paymentsTo a right := List.filter_append ..

theorem paymentsTo_eq_nil {a : Address} {txs : List SignedTransaction} (elsewhere : ∀ tx ∈ txs, tx.toAddr ≠ a) :
    paymentsTo a txs = [] := by
  refine List.filter_eq_nil_iff.mpr fun tx member => ?_
  simpa using elsewhere tx member

theorem paymentsTo_eq_self {a : Address} {txs : List SignedTransaction} (here : ∀ tx ∈ txs, tx.toAddr = a) :
    paymentsTo a txs = txs := by
  refine List.filter_eq_self.mpr fun tx member => ?_
  simpa using here tx member

namespace Node
variable {C : Primitives} {Peer : Type} [DecidableEq Peer] {p : Profile} {n : Node C Peer} {ev : Event Peer}

/-- A payment stays inside the payer's own ledger, so only credits make it
grow. -/
theorem supply_handle (live : (n.handle p ev).halted = false) :
    (n.handle p ev).state.ledger.supply ≡
      n.ledger.supply + totalAmount (creditsIn (n.handle p ev).output) [MOD 2 ^ 64] := by
  rw [creditsIn_handle]
  cases pays : n.paymentOf ev with
  | some tx =>
    rcases handle_of_paymentOf p pays with ⟨_, _, _, _, reaction⟩ | ⟨_, line, now, publishOk, _, rfl, _, reaction⟩
    · rw [reaction] at live
      cases live
    · have covers := (payment_spec pays).2.2.2
      have debit := covers.supply_debited
      have credit := supply_plus_modEq (n.ledger.debited n.wallet.address tx.amount) tx.toAddr tx.amount
      rw [reaction]
      rw [debit] at credit
      exact credit
  | none =>
    cases admits : n.admitted ev with
    | some tx =>
      rcases handle_of_admitted p admits with ⟨_, _, reaction⟩ | ⟨_, _, _, reaction⟩
      · rw [reaction] at live
        cases live
      · have credit := supply_plus_modEq n.ledger n.wallet.address tx.amount
        rw [reaction, Option.toList_some, totalAmount_cons, totalAmount_nil, Nat.add_zero]
        exact credit
    | none =>
      obtain ⟨_, ledger, _⟩ := handle_of_idle p pays admits
      rw [ledger]
      exact Nat.ModEq.refl _

/-- All entries of a node's ledger together are its opening balance and what
it was credited. -/
theorem supply_run {wallet : Wallet C} {balance : UInt64} {events : List (Event Peer)}
    (live : (run (handle p) (start wallet balance) events).halted = false) :
    (run (handle p) (start wallet balance) events).state.ledger.supply ≡
      balance.toNat + totalAmount (creditsIn (run (handle p) (start wallet balance) events).output) [MOD 2 ^ 64] := by
  let I : Node C Peer → List (Effect Peer) → Prop := fun n past =>
    n.ledger.supply ≡ balance.toNat + totalAmount (creditsIn past) [MOD 2 ^ 64]
  have keep : ∀ n past ev, I n past → True → (n.handle p ev).halted = false →
      I (n.handle p ev).state (past ++ (n.handle p ev).output) := by
    intro n past ev holds _ running
    have step := supply_handle running
    have total : I n past := holds
    simp only [I, creditsIn_append, totalAmount_append, Nat.ModEq] at step total ⊢
    omega
  have begin : I (start wallet balance) [] := by
    have empty : Ledger.new.supply = 0 := rfl
    have missing : Ledger.new.funds wallet.address = 0 := rfl
    have opens := Ledger.supply_set Ledger.new wallet.address (.new balance)
    rw [empty, missing, Nat.add_zero, Nat.zero_add] at opens
    exact congrArg (· % 2 ^ 64) opens
  exact run_invariant (I := I) keep begin (fun _ _ => trivial) live

/-- The entry of another address holds what was paid there. -/
theorem funds_run {wallet : Wallet C} {balance : UInt64} {events : List (Event Peer)} {a : Address}
    (live : (run (handle p) (start wallet balance) events).halted = false) (other : a ≠ wallet.address) :
    (run (handle p) (start wallet balance) events).state.ledger.funds a ≡
      totalAmount (paymentsTo a (transfersIn (run (handle p) (start wallet balance) events).output)) [MOD 2 ^ 64] := by
  have books := books_run live a
  have away : a ≠ (start wallet balance : Node C Peer).wallet.address := other
  rw [wallet_run, entryAfter, if_neg away] at books
  split at books
  · rename_i none
    rw [none, Ledger.funds_of_missing books]
    exact Nat.ModEq.refl _
  · rw [Ledger.funds_of_account books]
    exact Nat.mod_modEq _ _

end Node

namespace Network
variable {C : Primitives} {ι : Type} [DecidableEq ι] [Fintype ι] {p : Profile} {wallets : ι → Wallet C}
  {genesis : ι → UInt64} {actions : List (Action ι)}

theorem totalTo_sentIn (a : Address) (past : List (ι × Effect ι)) :
    totalAmount (paymentsTo a (sentIn past)) = ∑ i, totalAmount (paymentsTo a (transfersIn (outputOf i past))) := by
  refine sum_outputOf (F := fun effects => totalAmount (paymentsTo a (transfersIn effects))) rfl (fun left right => ?_) past
  rw [transfersIn_append, paymentsTo_append, totalAmount_append]

theorem totalTo_creditedIn (a : Address) (past : List (ι × Effect ι)) :
    totalAmount (paymentsTo a (creditedIn past)) = ∑ i, totalAmount (paymentsTo a (creditsIn (outputOf i past))) := by
  refine sum_outputOf (F := fun effects => totalAmount (paymentsTo a (creditsIn effects))) rfl (fun left right => ?_) past
  rw [creditsIn_append, paymentsTo_append, totalAmount_append]

/-- What is credited to an address is what the node that has it credits. -/
theorem credited_own (distinct : Function.Injective fun i => (wallets i).address) (j : ι) :
    totalAmount (paymentsTo (wallets j).address (creditedIn (run (react p) (start wallets genesis) actions).output)) =
      totalAmount (creditsIn (outputOf j (run (react p) (start wallets genesis) actions).output)) := by
  have others : ∀ i ∈ Finset.univ, i ≠ j → totalAmount (paymentsTo (wallets j).address
      (creditsIn (outputOf i (run (react p) (start wallets genesis) actions).output))) = 0 := by
    intro i _ different
    rw [paymentsTo_eq_nil fun tx credited here => different (distinct ((credited_address credited).symm.trans here)),
      totalAmount_nil]
  rw [totalTo_creditedIn, Finset.sum_eq_single j others fun absent => absurd (Finset.mem_univ j) absent,
    paymentsTo_eq_self fun tx credited => credited_address credited]

/-- No node pays itself. -/
theorem sent_elsewhere (j : ι) :
    paymentsTo (wallets j).address (transfersIn (outputOf j (run (react p) (start wallets genesis) actions).output)) = [] := by
  have alone := node_run p wallets genesis actions j
  have numbered : Numbered (wallets j).address (transfersIn (run (Node.handle p) (.start (wallets j) (genesis j))
      (inputsOf schedule j (steps (react p) (start wallets genesis) actions))).output) := Node.numbered_run
  rw [alone] at numbered
  refine paymentsTo_eq_nil fun tx member => ?_
  obtain ⟨k, atIndex⟩ := List.mem_iff_getElem?.mp member
  exact (numbered k tx atIndex).2.1

theorem remembers_run (distinct : Function.Injective fun i => (wallets i).address)
    (first : ∀ st ∈ steps (react p) (start wallets genesis) actions, FirstCopies st.before st.input) :
    Remembers wallets (run (react p) (start wallets genesis) actions).state
      (run (react p) (start wallets genesis) actions).output :=
  run_always (fun _ _ _ holds here => remembers_step distinct holds here) remembers_start first

/-- The ledgers of the nodes agree with one another: while every direct
request to its addressee is the first copy of its payment to arrive there
and no node is down, all that one node's ledger holds, with what is still on
its way to the node, is what it began with and what the ledgers of the other
nodes hold for it. -/
theorem ledgers_reconcile (distinct : Function.Injective fun i => (wallets i).address)
    (first : ∀ st ∈ steps (react p) (start wallets genesis) actions, FirstCopies st.before st.input)
    (up : (run (react p) (start wallets genesis) actions).state.down = ∅) (j : ι) :
    ((run (react p) (start wallets genesis) actions).state.parts j).ledger.supply +
        totalAmount (paymentsTo (wallets j).address (outstanding (run (react p) (start wallets genesis) actions).output)) ≡
      (genesis j).toNat + ∑ i ∈ Finset.univ.erase j,
        ((run (react p) (start wallets genesis) actions).state.parts i).ledger.funds (wallets j).address [MOD 2 ^ 64] := by
  have remembers : Remembers wallets (run (react p) (start wallets genesis) actions).state
      (run (react p) (start wallets genesis) actions).output := remembers_run distinct first
  have honest : Honest (run (react p) (start wallets genesis) actions).state
      (run (react p) (start wallets genesis) actions).output := honest_run
  have live : ∀ i, (run (Node.handle p) (.start (wallets i) (genesis i))
      (inputsOf schedule i (steps (react p) (start wallets genesis) actions))).halted = false := by
    intro i
    rw [node_run, up]
    exact decide_eq_false (Finset.notMem_empty i)
  have own := Node.supply_run (live j)
  rw [node_run, ← credited_own distinct j] at own
  have entries : ∑ i ∈ Finset.univ.erase j,
        ((run (react p) (start wallets genesis) actions).state.parts i).ledger.funds (wallets j).address ≡
      ∑ i ∈ Finset.univ.erase j, totalAmount (paymentsTo (wallets j).address
        (transfersIn (outputOf i (run (react p) (start wallets genesis) actions).output))) [MOD 2 ^ 64] := by
    refine Nat.ModEq.sum fun i member => ?_
    have other : (wallets j).address ≠ (wallets i).address :=
      fun same => Finset.ne_of_mem_erase member (distinct same).symm
    have entry := Node.funds_run (live i) other
    rwa [node_run] at entry
  have whole := totalTo_sentIn (wallets j).address (run (react p) (start wallets genesis) actions).output
  rw [← Finset.add_sum_erase _ _ (Finset.mem_univ j), sent_elsewhere, totalAmount_nil, Nat.zero_add] at whole
  have split := totalAmount_perm ((outstanding_perm remembers.once honest.credited).filter
    fun tx => tx.toAddr = (wallets j).address)
  have parts : totalAmount (paymentsTo (wallets j).address (creditedIn (run (react p) (start wallets genesis) actions).output)) +
      totalAmount (paymentsTo (wallets j).address (outstanding (run (react p) (start wallets genesis) actions).output)) =
      totalAmount (paymentsTo (wallets j).address (sentIn (run (react p) (start wallets genesis) actions).output)) := by
    rw [← totalAmount_append, ← paymentsTo_append]
    exact split
  rw [← whole, ← parts] at entries
  simp only [Nat.ModEq] at own entries ⊢
  omega

/-- The payee's ledger against the payer's, when all has arrived. -/
theorem ledgers_reconcile_untilSilent :
    ((run (react .dev) (start samplePair ![1000, 0]) untilSilent).state.parts payee).ledger.supply +
        totalAmount (paymentsTo (samplePair payee).address
          (outstanding (run (react .dev) (start samplePair ![1000, 0]) untilSilent).output)) ≡
      ((![1000, 0] : Fin 2 → UInt64) payee).toNat + ∑ i ∈ Finset.univ.erase payee,
        ((run (react .dev) (start samplePair ![1000, 0]) untilSilent).state.parts i).ledger.funds
          (samplePair payee).address [MOD 2 ^ 64] :=
  ledgers_reconcile (by decide +kernel) (by decide +kernel) (by decide +kernel) payee

end Network
end SecureExchange
