import SecureExchange.Library.Bank
import SecureExchange.Quiescence

namespace SecureExchange
open Reactive

namespace Network
variable {C : Primitives} {ι : Type}

/-- A transaction as a transfer between the nodes whose addresses it names. -/
def terms (wallets : ι → Wallet C) : Bank.Terms ι SignedTransaction where
  payer tx i := tx.fromAddr = (wallets i).address
  payee tx i := tx.toAddr = (wallets i).address
  amount tx := tx.amount.toNat
  number tx := tx.nonce.toNat

/-- What an effect of a node does to the accounts. -/
def deed : ι × Effect ι → Option (Bank.Deed ι SignedTransaction)
  | (i, .transferred tx) => some (.paid i tx)
  | (i, .credited tx) => some (.collected i tx)
  | _ => none

def deedsIn (past : List (ι × Effect ι)) : List (Bank.Deed ι SignedTransaction) := past.filterMap deed

theorem deedsIn_append (left right : List (ι × Effect ι)) :
    deedsIn (left ++ right) = deedsIn left ++ deedsIn right := List.filterMap_append

theorem deedsIn_of_quiet (i : ι) {effects : List (Effect ι)} (quiet : ∀ e ∈ effects, e.Quiet) :
    deedsIn (effects.map fun e => (i, e)) = [] := by
  refine List.filterMap_eq_nil_iff.mpr fun entry member => ?_
  obtain ⟨e, among, rfl⟩ := List.mem_map.mp member
  have silent := quiet e among
  cases e with
  | transferred | credited => exact silent.elim
  | sendRequest | publish | sendResponse | println => rfl

/-- The accounts that the nodes begin with. -/
def opened (genesis : ι → UInt64) : Bank.Books ι SignedTransaction := ⟨fun i => (genesis i).toNat, fun _ => 0, 0⟩

/-- Paying is putting the transfer on its way. -/
theorem outstanding_paid {past : List (ι × Effect ι)} (once : (creditedIn past).Nodup) (backed : creditedIn past ⊆ sentIn past)
    {now : List (ι × Effect ι)} {tx : SignedTransaction} (sent : sentIn now = [tx]) (silent : creditedIn now = []) :
    (outstanding (past ++ now) : Multiset SignedTransaction) = tx ::ₘ outstanding past := by
  have within : (creditedIn past : Multiset SignedTransaction) ≤ sentIn past :=
    Multiset.coe_le.mpr (List.subperm_of_subset once backed)
  rw [outstanding, outstanding, sentIn_append, creditedIn_append, sent, silent, List.append_nil, ← Multiset.coe_sub,
    ← Multiset.coe_sub, ← Multiset.coe_add, ← tsub_add_eq_add_tsub within, Multiset.coe_singleton,
    add_comm, Multiset.singleton_add]

theorem mem_outstanding {past : List (ι × Effect ι)} {tx : SignedTransaction} (among : tx ∈ sentIn past)
    (fresh : tx ∉ creditedIn past) : tx ∈ (outstanding past : Multiset SignedTransaction) :=
  Multiset.mem_coe.mpr (List.mem_diff_of_mem among fresh)

/-- What is credited for the first time was on its way. -/
theorem outstanding_credited {past now : List (ι × Effect ι)} {tx : SignedTransaction} (silent : sentIn now = [])
    (credits : creditedIn now = [tx]) (waits : tx ∈ (outstanding past : Multiset SignedTransaction)) :
    (outstanding past : Multiset SignedTransaction) = tx ::ₘ outstanding (past ++ now) := by
  rw [outstanding, ← Multiset.coe_sub] at waits
  rw [outstanding, outstanding, sentIn_append, creditedIn_append, silent, credits, List.append_nil, ← Multiset.coe_sub,
    ← Multiset.coe_sub, ← Multiset.coe_add, tsub_add_eq_tsub_tsub, Multiset.coe_singleton, Multiset.sub_singleton,
    Multiset.cons_erase waits]

variable [DecidableEq ι]

/-- The nodes' own accounts as the accounts of one bank. -/
def booksOf (net : Network C ι) (past : List (ι × Effect ι)) : Bank.Books ι SignedTransaction where
  funds i := (net.parts i).ownFunds
  made i := (transfersIn (outputOf i past)).length
  pending := outstanding past

/-- An event that a node survives is at most one deed. -/
theorem deedsIn_handle {p : Profile} {n : Node C ι} {ev : Event ι} (i : ι) (live : (n.handle p ev).halted = false) :
    deedsIn ((n.handle p ev).output.map fun e => (i, e)) =
      ((n.paymentOf ev).map (Bank.Deed.paid i)).toList ++ ((n.admitted ev).map (Bank.Deed.collected i)).toList := by
  cases pays : n.paymentOf ev with
  | some tx =>
    rcases Node.handle_of_paymentOf p pays with ⟨_, _, _, _, reaction⟩ | ⟨_, line, now, publishOk, _, rfl, quiet, reaction⟩
    · rw [reaction] at live
      cases live
    · have rest := deedsIn_of_quiet i quiet
      rw [reaction]
      exact congrArg (List.cons (Bank.Deed.paid i tx)) rest
  | none =>
    cases admits : n.admitted ev with
    | some tx =>
      rcases Node.handle_of_admitted p admits with ⟨_, _, reaction⟩ | ⟨_, _, quiet, reaction⟩
      · rw [reaction] at live
        cases live
      · have rest := deedsIn_of_quiet i quiet
        rw [reaction]
        exact congrArg (List.cons (Bank.Deed.collected i tx)) rest
    | none => exact deedsIn_of_quiet i (Node.handle_of_idle p pays admits).2.2

section Steps
variable [Fintype ι] {p : Profile} {wallets : ι → Wallet C} {genesis : ι → UInt64} {net : Network C ι}
  {past : List (ι × Effect ι)} {action : Action ι} {i : ι} {ev : Event ι}

/-- A move changes the accounts of the mover only. -/
theorem booksOf_move (moves : move schedule net action = some (i, ev)) :
    booksOf (react p net action).state (past ++ (react p net action).output) =
      ⟨Function.update (booksOf net past).funds i ((net.parts i).handle p ev).state.ownFunds,
        Function.update (booksOf net past).made i ((booksOf net past).made i +
          (transfersIn ((net.parts i).handle p ev).output).length),
        outstanding (past ++ (react p net action).output)⟩ := by
  have others : ∀ j, j ≠ i → ((react p net action).state.parts j) = net.parts j ∧
      outputOf j (react p net action).output = [] := by
    intro j different
    have still : ∀ k, move schedule net action ≠ some (j, k) := fun k found => by
      rw [moves] at found
      cases found
      exact different rfl
    obtain ⟨part, _, silent⟩ := interleave_other (Node.handle p) still
    exact ⟨part, silent⟩
  obtain ⟨part, _, output⟩ := interleave_own (Node.handle p) moves
  rw [booksOf, Bank.Books.mk.injEq]
  refine ⟨funext fun j => ?_, funext fun j => ?_, rfl⟩
  · by_cases same : j = i
    · subst same
      rw [Function.update_self, react, part]
    · rw [Function.update_of_ne same, (others j same).1]
      rfl
  · rw [outputOf_append, transfersIn_append, List.length_append]
    by_cases same : j = i
    · subst same
      rw [Function.update_self, react, output]
      rfl
    · rw [Function.update_of_ne same, (others j same).2]
      rfl

/-- The network with its history is a bank with its deeds. -/
structure Banked (wallets : ι → Wallet C) (genesis : ι → UInt64) (net : Network C ι)
    (past : List (ι × Effect ι)) : Prop where
  honest : Honest net past
  remembers : Remembers wallets net past
  counted : net.down = ∅ → ∀ i, (net.parts i).ownNonce = UInt64.ofNat ((booksOf net past).made i)
  traced : net.down = ∅ → (∀ i, (booksOf net past).made i ≤ 2 ^ 64) →
    Bank.Trace (terms wallets) (opened genesis) (deedsIn past) (booksOf net past)

omit [Fintype ι] in
/-- A payment is a transfer that the bank makes. -/
theorem Banked.pays (holds : Banked wallets genesis net past) (up : net.down = ∅)
    (few : (booksOf net past).made i < 2 ^ 64) {tx : SignedTransaction} (pays : (net.parts i).paymentOf ev = some tx) :
    (terms wallets).payer tx i ∧ (terms wallets).number tx = (booksOf net past).made i ∧
      0 < (terms wallets).amount tx ∧ (terms wallets).amount tx ≤ (booksOf net past).funds i := by
  obtain ⟨line, now, publishOk, rfl, payment⟩ := Node.stdin_of_paymentOf pays
  obtain ⟨_, payer, nonce, _, positive, covered⟩ := Node.payment_spec payment
  rw [holds.remembers.own] at payer
  refine ⟨payer, ?_, ?_, covered⟩
  · change tx.nonce.toNat = (booksOf net past).made i
    rw [nonce, holds.counted up, toNat_ofNat_nonce few]
  · exact Nat.pos_of_ne_zero fun zero => positive (UInt64.toNat_inj.mp zero)

/-- A credit is a transfer that waits, and it fits. -/
theorem Banked.collects (holds : Banked wallets genesis net past) (supply : ∑ i, (genesis i).toNat < 2 ^ 64)
    (up : net.down = ∅) (few : ∀ j, (booksOf net past).made j ≤ 2 ^ 64) (first : FirstCopies net action)
    (moves : move schedule net action = some (i, ev)) {tx : SignedTransaction}
    (admits : (net.parts i).admitted ev = some tx) :
    (terms wallets).payee tx i ∧ tx ∈ (booksOf net past).pending ∧ (net.parts i).CreditFits tx := by
  have fresh := holds.remembers.fresh first moves admits
  obtain ⟨handles, _, here⟩ := Node.admitted_spec admits
  rw [holds.remembers.own] at here
  have sent : tx ∈ sentIn past := by
    rcases holds.honest.handled moves handles with pays | before
    · rw [Node.paymentOf_of_admitted admits] at pays
      cases pays
    · exact before
  have waits : tx ∈ (booksOf net past).pending := mem_outstanding sent fresh
  have bound : (net.parts i).ownFunds + tx.amount.toNat ≤ ∑ i, (genesis i).toNat :=
    (holds.traced up few).collect_le waits i
  exact ⟨here, waits, Nat.lt_of_le_of_lt bound supply⟩

theorem counted_step (holds : Banked wallets genesis net past) (up : (react p net action).state.down = ∅) (j : ι) :
    ((react p net action).state.parts j).ownNonce = UInt64.ofNat
      ((booksOf (react p net action).state (past ++ (react p net action).output)).made j) := by
  cases moves : move schedule net action with
  | none =>
    rw [react, interleave_idle moves] at up ⊢
    simpa [Reaction.stay] using holds.counted up j
  | some turn =>
    obtain ⟨i, ev⟩ := turn
    obtain ⟨upBefore, live⟩ := live_of_up moves up
    rw [booksOf_move moves]
    by_cases same : j = i
    · subst same
      rw [react, (interleave_own (Node.handle p) moves).1, Node.ownNonce_handle live, holds.counted upBefore j]
      simp only [Function.update_self, UInt64.ofNat_add]
    · have still : ∀ k, move schedule net action ≠ some (j, k) := fun k found => by
        rw [moves] at found
        cases found
        exact same rfl
      rw [react, (interleave_other (Node.handle p) still).1, holds.counted upBefore j]
      simp only [Function.update_of_ne same]

theorem made_step_le (p : Profile) (net : Network C ι) (past : List (ι × Effect ι)) (action : Action ι) (j : ι) :
    (booksOf net past).made j ≤
      (booksOf (react p net action).state (past ++ (react p net action).output)).made j := by
  simp only [booksOf, outputOf_append, transfersIn_append, List.length_append]
  exact Nat.le_add_right _ _

omit [Fintype ι] in
theorem own_accounts {n : Node C ι} (live : (n.handle p ev).halted = false)
    (fits : ∀ tx, n.admitted ev = some tx → n.CreditFits tx) :
    (n.handle p ev).state.ownFunds + totalAmount (n.paymentOf ev).toList =
      n.ownFunds + totalAmount (n.admitted ev).toList := by
  have balance := Node.accounts_of_live live fits
  rwa [Node.transfersIn_handle live, Node.creditsIn_handle] at balance

/-- What a step that the mover survives sends, as what it pays. -/
theorem sentIn_move (moves : move schedule net action = some (i, ev))
    (live : ((net.parts i).handle p ev).halted = false) :
    sentIn (react p net action).output = ((net.parts i).paymentOf ev).toList := by
  rw [react, interleave_move moves, sentIn_own, Node.transfersIn_handle live]

theorem deedsIn_move (moves : move schedule net action = some (i, ev))
    (live : ((net.parts i).handle p ev).halted = false) :
    deedsIn (react p net action).output = (((net.parts i).paymentOf ev).map (Bank.Deed.paid i)).toList ++
      (((net.parts i).admitted ev).map (Bank.Deed.collected i)).toList := by
  rw [react, interleave_move moves]
  exact deedsIn_handle i live

theorem paid_step (holds : Banked wallets genesis net past) (moves : move schedule net action = some (i, ev))
    (up : (react p net action).state.down = ∅)
    (few : (booksOf (react p net action).state (past ++ (react p net action).output)).made i ≤ 2 ^ 64)
    {tx : SignedTransaction} (pays : (net.parts i).paymentOf ev = some tx) :
    deedsIn (react p net action).output = [.paid i tx] ∧
      Bank.Step (terms wallets) (booksOf net past) (.paid i tx)
        (booksOf (react p net action).state (past ++ (react p net action).output)) := by
  obtain ⟨upBefore, live⟩ := live_of_up moves up
  have silent : (net.parts i).admitted ev = none := by
    obtain ⟨line, now, publishOk, rfl, _⟩ := Node.stdin_of_paymentOf pays
    rfl
  have balance := own_accounts live fun other admits => by rw [silent] at admits; cases admits
  have sends := sentIn_move moves live
  have credits := creditedIn_move (p := p) moves
  have deeds := deedsIn_move moves live
  rw [pays, silent] at balance deeds
  rw [pays] at sends
  rw [silent] at credits
  have funds : ((net.parts i).handle p ev).state.ownFunds =
      (booksOf net past).funds i - (terms wallets).amount tx := by
    simp only [Option.toList_some, Option.toList_none, totalAmount_cons, totalAmount_nil] at balance
    simp only [booksOf, terms]
    omega
  have books : booksOf (react p net action).state (past ++ (react p net action).output) =
      ⟨Function.update (booksOf net past).funds i ((booksOf net past).funds i - (terms wallets).amount tx),
        Function.update (booksOf net past).made i ((booksOf net past).made i + 1),
        tx ::ₘ (booksOf net past).pending⟩ := by
    rw [booksOf_move moves, funds, Node.transfersIn_handle live, pays,
      outstanding_paid holds.remembers.once holds.honest.credited sends credits]
    rfl
  simp only [books, Function.update_self] at few
  obtain ⟨own, next, positive, covered⟩ := holds.pays upBefore few pays
  refine ⟨deeds, ?_⟩
  rw [books]
  exact .pay own next positive covered

theorem collected_step (supply : ∑ i, (genesis i).toNat < 2 ^ 64) (holds : Banked wallets genesis net past)
    (first : FirstCopies net action) (moves : move schedule net action = some (i, ev))
    (up : (react p net action).state.down = ∅) (few : ∀ j, (booksOf net past).made j ≤ 2 ^ 64)
    {tx : SignedTransaction} (admits : (net.parts i).admitted ev = some tx) :
    deedsIn (react p net action).output = [.collected i tx] ∧
      Bank.Step (terms wallets) (booksOf net past) (.collected i tx)
        (booksOf (react p net action).state (past ++ (react p net action).output)) := by
  obtain ⟨upBefore, live⟩ := live_of_up moves up
  obtain ⟨own, waits, fits⟩ := holds.collects supply upBefore few first moves admits
  have unpaid := Node.paymentOf_of_admitted admits
  have balance := own_accounts live fun other also => by
    rw [admits] at also
    cases also
    exact fits
  have sends := sentIn_move moves live
  have credits := creditedIn_move (p := p) moves
  have deeds := deedsIn_move moves live
  rw [unpaid, admits] at balance deeds
  rw [unpaid] at sends
  rw [admits] at credits
  have funds : ((net.parts i).handle p ev).state.ownFunds =
      (booksOf net past).funds i + (terms wallets).amount tx := by
    simp only [Option.toList_some, Option.toList_none, totalAmount_cons, totalAmount_nil] at balance
    simp only [booksOf, terms]
    omega
  have books : booksOf (react p net action).state (past ++ (react p net action).output) =
      ⟨Function.update (booksOf net past).funds i ((booksOf net past).funds i + (terms wallets).amount tx),
        (booksOf net past).made, outstanding (past ++ (react p net action).output)⟩ := by
    rw [booksOf_move moves, funds, Node.transfersIn_handle live, unpaid, Option.toList_none, List.length_nil,
      Nat.add_zero, Function.update_eq_self]
  refine ⟨deeds, ?_⟩
  rw [books]
  exact .collect own (outstanding_credited sends credits waits)

variable (past) in
theorem idle_step (moves : move schedule net action = some (i, ev)) (up : (react p net action).state.down = ∅)
    (unpaid : (net.parts i).paymentOf ev = none) (unadmitted : (net.parts i).admitted ev = none) :
    deedsIn (react p net action).output = [] ∧
      booksOf (react p net action).state (past ++ (react p net action).output) = booksOf net past := by
  obtain ⟨_, live⟩ := live_of_up moves up
  have balance := own_accounts live fun other admits => by rw [unadmitted] at admits; cases admits
  have sends := sentIn_move moves live
  have credits := creditedIn_move (p := p) moves
  have deeds := deedsIn_move moves live
  rw [unpaid, unadmitted] at balance deeds
  rw [unpaid] at sends
  rw [unadmitted] at credits
  have funds : ((net.parts i).handle p ev).state.ownFunds = (booksOf net past).funds i := balance
  have pending : outstanding (past ++ (react p net action).output) = outstanding past := by
    rw [outstanding, outstanding, sentIn_append, creditedIn_append, sends, credits]
    simp
  refine ⟨deeds, ?_⟩
  rw [booksOf_move moves, funds, Node.transfersIn_handle live, unpaid, Option.toList_none, List.length_nil,
    Nat.add_zero, Function.update_eq_self, Function.update_eq_self, pending]
  rfl

/-- A step of the network is a step of the bank, or leaves its books alone. -/
theorem traced_step (supply : ∑ i, (genesis i).toNat < 2 ^ 64) (holds : Banked wallets genesis net past)
    (first : FirstCopies net action) (up : (react p net action).state.down = ∅)
    (few : ∀ j, (booksOf (react p net action).state (past ++ (react p net action).output)).made j ≤ 2 ^ 64) :
    Bank.Trace (terms wallets) (opened genesis) (deedsIn (past ++ (react p net action).output))
      (booksOf (react p net action).state (past ++ (react p net action).output)) := by
  have fewBefore : ∀ j, (booksOf net past).made j ≤ 2 ^ 64 :=
    fun j => Nat.le_trans (made_step_le p net past action j) (few j)
  cases moves : move schedule net action with
  | none =>
    rw [react, interleave_idle moves] at up ⊢
    simpa [Reaction.stay] using holds.traced up fewBefore
  | some turn =>
    obtain ⟨i, ev⟩ := turn
    have earlier := holds.traced (live_of_up moves up).1 fewBefore
    rw [deedsIn_append]
    cases pays : (net.parts i).paymentOf ev with
    | some tx =>
      obtain ⟨deeds, step⟩ := paid_step holds moves up (few i) pays
      rw [deeds]
      exact earlier.next step
    | none =>
      cases admits : (net.parts i).admitted ev with
      | some tx =>
        obtain ⟨deeds, step⟩ := collected_step supply holds first moves up fewBefore admits
        rw [deeds]
        exact earlier.next step
      | none =>
        obtain ⟨deeds, books⟩ := idle_step past moves up pays admits
        rw [deeds, books, List.append_nil]
        exact earlier

theorem banked_step (supply : ∑ i, (genesis i).toNat < 2 ^ 64)
    (distinct : Function.Injective fun i => (wallets i).address) (holds : Banked wallets genesis net past)
    (first : FirstCopies net action) :
    Banked wallets genesis (react p net action).state (past ++ (react p net action).output) :=
  ⟨honest_step holds.honest action, remembers_step distinct holds.remembers first,
    fun up => counted_step holds up, fun up few => traced_step supply holds first up few⟩

end Steps

section Runs
variable [Fintype ι] {p : Profile} {wallets : ι → Wallet C} {genesis : ι → UInt64} {actions : List (Action ι)}

theorem banked_run (supply : ∑ i, (genesis i).toNat < 2 ^ 64)
    (distinct : Function.Injective fun i => (wallets i).address)
    (first : ∀ st ∈ steps (react p) (start wallets genesis) actions, FirstCopies st.before st.input) :
    Banked wallets genesis (run (react p) (start wallets genesis) actions).state
      (run (react p) (start wallets genesis) actions).output := by
  have books : booksOf (start wallets genesis) [] = opened genesis := by
    simp only [booksOf, start, Node.ownFunds_start]
    rfl
  have begin : Banked wallets genesis (start wallets genesis) [] := by
    refine ⟨honest_start, remembers_start, fun _ i => ?_, fun _ _ => ?_⟩
    · exact Node.ownNonce_start (wallets i) (genesis i)
    · rw [books]
      exact .start
  exact run_always (fun _ _ _ holds here => banked_step supply distinct holds here) begin first

/-- The own accounts of the nodes are together the accounts of one bank:
what the nodes do in any run, in the order in which they do it, is a trace
of the bank, and it ends with the books that the nodes then hold. -/
theorem refines_bank (supply : ∑ i, (genesis i).toNat < 2 ^ 64)
    (distinct : Function.Injective fun i => (wallets i).address)
    (first : ∀ st ∈ steps (react p) (start wallets genesis) actions, FirstCopies st.before st.input)
    (up : (run (react p) (start wallets genesis) actions).state.down = ∅)
    (few : ∀ i, (transfersIn (outputOf i (run (react p) (start wallets genesis) actions).output)).length ≤ 2 ^ 64) :
    Bank.Trace (terms wallets) (opened genesis) (deedsIn (run (react p) (start wallets genesis) actions).output)
      (booksOf (run (react p) (start wallets genesis) actions).state
        (run (react p) (start wallets genesis) actions).output) := by
  have holds : Banked wallets genesis (run (react p) (start wallets genesis) actions).state
      (run (react p) (start wallets genesis) actions).output := banked_run supply distinct first
  exact holds.traced up few

theorem refines_bank_untilSilent :
    Bank.Trace (terms samplePair) (opened ![1000, 0])
      (deedsIn (run (react .dev) (start samplePair ![1000, 0]) untilSilent).output)
      (booksOf (run (react .dev) (start samplePair ![1000, 0]) untilSilent).state
        (run (react .dev) (start samplePair ![1000, 0]) untilSilent).output) :=
  refines_bank (by decide +kernel) (by decide +kernel) (by decide +kernel) (by decide +kernel) (by decide +kernel)

end Runs
end Network
end SecureExchange
