import SecureExchange.Conservation

namespace SecureExchange
open Reactive

namespace Network
variable {C : Primitives} {ι : Type} [DecidableEq ι] [Fintype ι]

/-- No addition that an action causes overflows, in the ledger of any node. -/
def Fits (net : Network C ι) (action : Action ι) : Prop :=
  ∀ turn ∈ move schedule net action, (net.parts turn.1).AdditionsFit turn.2

instance (net : Network C ι) (action : Action ι) : Decidable (Fits net action) :=
  inferInstanceAs (Decidable (∀ turn ∈ _, _))

/-- The payment that an action makes node `i` go for. -/
def attempt (i : ι) (net : Network C ι) (action : Action ι) : Option SignedTransaction :=
  match move schedule net action with
  | none => none
  | some (j, ev) => if j = i then (net.parts j).paymentOf ev else none

def attempts (i : ι) (sts : List (Step (Network C ι) (Action ι) (ι × Effect ι))) :
    List SignedTransaction :=
  sts.filterMap fun st => attempt i st.before st.input

theorem attempt_of_move {net : Network C ι} {action : Action ι} {i : ι} {ev : Event ι}
    (moves : move schedule net action = some (i, ev)) :
    attempt i net action = (net.parts i).paymentOf ev := by
  simp only [attempt, moves, if_true]

theorem attempts_cons (i : ι) (st : Step (Network C ι) (Action ι) (ι × Effect ι))
    (sts : List (Step (Network C ι) (Action ι) (ι × Effect ι))) :
    attempts i (st :: sts) = (attempt i st.before st.input).toList ++ attempts i sts := by
  rw [attempts, attempts, List.filterMap_cons]
  cases attempt i st.before st.input with
  | none => rfl
  | some tx => rfl

theorem attempts_append (i : ι) (left right : List (Step (Network C ι) (Action ι) (ι × Effect ι))) :
    attempts i (left ++ right) = attempts i left ++ attempts i right := List.filterMap_append

theorem attempts_length_append (i : ι) (left right : List (Step (Network C ι) (Action ι) (ι × Effect ι))) :
    (attempts i (left ++ right)).length = (attempts i left).length + (attempts i right).length := by
  rw [attempts_append, List.length_append]

/-- What a node goes for on behalf of one address adds up along a run. -/
theorem attempts_amount_append (i : ι) (a : Address)
    (left right : List (Step (Network C ι) (Action ι) (ι × Effect ι))) :
    totalAmount ((attempts i (left ++ right)).filter fun tx => tx.toAddr = a) =
      totalAmount ((attempts i left).filter fun tx => tx.toAddr = a) +
        totalAmount ((attempts i right).filter fun tx => tx.toAddr = a) := by
  rw [attempts_append, List.filter_append, totalAmount_append]

/-- Where the additions fit, a payment that is gone for is sent. -/
theorem transfers_move {p : Profile} {net : Network C ι} {action : Action ι} (fits : Fits net action) (i : ι) :
    transfersIn (outputOf i (react p net action).output) = (attempt i net action).toList := by
  cases moves : move schedule net action with
  | none =>
    rw [react, interleave_idle moves]
    simp only [attempt, moves]
    rfl
  | some turn =>
    obtain ⟨j, ev⟩ := turn
    simp only [attempt, moves]
    by_cases same : j = i
    · subst same
      have live := (fits (j, ev) moves).live (p := p)
      rw [react, (interleave_own (Node.handle p) moves).2.2, Node.transfersIn_handle live, if_pos rfl]
    · have still : ∀ k, move schedule net action ≠ some (i, k) := fun k found => by
        rw [moves] at found
        cases found
        exact same rfl
      rw [react, (interleave_other (Node.handle p) still).2.2, if_neg same]
      rfl

theorem attempts_eq {p : Profile} {net : Network C ι} {actions : List (Action ι)}
    (fits : ∀ st ∈ steps (react p) net actions, Fits st.before st.input) (i : ι) :
    attempts i (steps (react p) net actions) =
      transfersIn (outputOf i (run (react p) net actions).output) := by
  induction actions generalizing net with
  | nil => rfl
  | cons action rest ih =>
    have here : Fits net action := fits ⟨net, action, react p net action⟩ (by simp [steps])
    have whole : steps (react p) net (action :: rest) =
        ⟨net, action, react p net action⟩ :: steps (react p) (react p net action).state rest :=
      steps_interleave_cons
    have output : (run (react p) net (action :: rest)).output =
        (react p net action).output ++ (run (react p) (react p net action).state rest).output := by
      rw [react, run_interleave_cons]
    have tail := ih fun st member => fits st (by rw [whole]; exact List.mem_cons_of_mem _ member)
    rw [whole, output, outputOf_append, transfersIn_append, transfers_move here, ← tail]
    exact attempts_cons i _ _

section Runs
variable {p : Profile} {wallets : ι → Wallet C} {genesis : ι → UInt64} {actions : List (Action ι)}

variable (p wallets genesis actions) in
/-- The part of one node in a run of the network is a run of that node. -/
theorem node_run (i : ι) :
    run (Node.handle p) (.start (wallets i) (genesis i))
        (inputsOf schedule i (steps (react p) (start wallets genesis) actions)) =
      ⟨(run (react p) (start wallets genesis) actions).state.parts i,
        outputOf i (run (react p) (start wallets genesis) actions).output,
        decide (i ∈ (run (react p) (start wallets genesis) actions).state.down)⟩ :=
  run_part (s := start wallets genesis) (Finset.notMem_empty i)

theorem wallet_part (i : ι) :
    ((run (react p) (start wallets genesis) actions).state.parts i).wallet = wallets i := by
  have same := Node.wallet_run p (.start (wallets i) (genesis i))
    (inputsOf schedule i (steps (react p) (start wallets genesis) actions))
  rw [node_run] at same
  exact same

/-- While all additions fit, each node's own nonce counts its payments, and
its entry for another address holds what it paid there. -/
theorem books_run (fits : ∀ st ∈ steps (react p) (start wallets genesis) actions, Fits st.before st.input)
    (i : ι) :
    ((run (react p) (start wallets genesis) actions).state.parts i).ownNonce.toNat =
        (attempts i (steps (react p) (start wallets genesis) actions)).length ∧
      ∀ a, a ≠ (wallets i).address →
        ((run (react p) (start wallets genesis) actions).state.parts i).ledger.funds a =
          totalAmount ((attempts i (steps (react p) (start wallets genesis) actions)).filter
            fun tx => tx.toAddr = a) := by
  have local' := node_run p wallets genesis actions i
  have fitsHere : ∀ st ∈ steps (Node.handle p) (.start (wallets i) (genesis i))
      (inputsOf schedule i (steps (react p) (start wallets genesis) actions)),
      st.before.AdditionsFit st.input := by
    intro st member
    obtain ⟨whole, among, moves, before⟩ := steps_part (s := start wallets genesis) (Finset.notMem_empty i) member
    rw [before]
    exact fits whole among (i, st.input) moves
  have counted := (Node.accounts_run fitsHere).2
  rw [local'] at counted
  rw [attempts_eq fits]
  refine ⟨counted, fun a other => ?_⟩
  have entry := Node.entries_run fitsHere other
  rw [local'] at entry
  exact entry

/-- A credit of something sent, and not credited before, fits beside the
own balance: together they are no more than what the network began with. -/
theorem credit_fits (supply : ∑ i, (genesis i).toNat < 2 ^ 64) {action : Action ι} {i : ι} {ev : Event ι}
    {tx : SignedTransaction}
    (moves : move schedule (run (react p) (start wallets genesis) actions).state action = some (i, ev))
    (admits : ((run (react p) (start wallets genesis) actions).state.parts i).admitted ev = some tx)
    (once : (creditedIn (run (react p) (start wallets genesis) actions).output ++ [tx]).Nodup) :
    ((run (react p) (start wallets genesis) actions).state.parts i).CreditFits tx := by
  have honest : Honest (run (react p) (start wallets genesis) actions).state
      (run (react p) (start wallets genesis) actions).output := honest_run
  have sent : tx ∈ sentIn (run (react p) (start wallets genesis) actions).output := by
    rcases honest.handled moves (Node.admitted_spec admits).1 with pays | before
    · rw [Node.paymentOf_of_admitted admits] at pays
      cases pays
    · exact before
  have backed := totalAmount_le_of_nodup once
    (List.append_subset.mpr ⟨honest.credited, by simpa using sent⟩)
  rw [totalAmount_append, totalAmount_cons, totalAmount_nil] at backed
  have total := supply_run p wallets genesis actions
  have part := Finset.single_le_sum
    (f := fun j => ((run (react p) (start wallets genesis) actions).state.parts j).ownFunds)
    (fun j _ => Nat.zero_le _) (Finset.mem_univ i)
  rw [Node.CreditFits]
  omega

/-- No node goes for a payment to itself. -/
theorem attempts_own (fits : ∀ st ∈ steps (react p) (start wallets genesis) actions, Fits st.before st.input)
    (i : ι) : totalAmount ((attempts i (steps (react p) (start wallets genesis) actions)).filter
      fun tx => tx.toAddr = (wallets i).address) = 0 := by
  have numbered : Numbered (wallets i).address (transfersIn (run (Node.handle p)
      (.start (wallets i) (genesis i))
      (inputsOf schedule i (steps (react p) (start wallets genesis) actions))).output) := Node.numbered_run
  rw [node_run] at numbered
  have none : (attempts i (steps (react p) (start wallets genesis) actions)).filter
      (fun tx => tx.toAddr = (wallets i).address) = [] := by
    refine List.filter_eq_nil_iff.mpr fun tx member => ?_
    rw [attempts_eq fits] at member
    obtain ⟨k, atIndex⟩ := List.mem_iff_getElem?.mp member
    simpa using (numbered k tx atIndex).2.1
  rw [none]
  rfl

variable (p wallets genesis) in
theorem last_step (before : List (Action ι)) (action : Action ι) :
    steps (react p) (start wallets genesis) (before ++ [action]) =
        steps (react p) (start wallets genesis) before ++
          [⟨(run (react p) (start wallets genesis) before).state, action,
            react p (run (react p) (start wallets genesis) before).state action⟩] ∧
      (run (react p) (start wallets genesis) (before ++ [action])).output =
        (run (react p) (start wallets genesis) before).output ++
          (react p (run (react p) (start wallets genesis) before).state action).output := by
  have live : (run (react p) (start wallets genesis) before).halted = false := run_interleave_live _ _
  have single : ∀ net : Network C ι, steps (react p) net [action] = [⟨net, action, react p net action⟩] :=
    fun net => steps_interleave_cons
  have output : ∀ net : Network C ι, (run (react p) net [action]).output = (react p net action).output := by
    intro net
    rw [react, run_interleave_cons]
    exact List.append_nil _
  rw [steps_append live, run_append live, single, output]
  exact ⟨rfl, rfl⟩

/-- After a run whose additions all fitted, so do those of the next action. -/
theorem next_fits (supply : ∑ i, (genesis i).toNat < 2 ^ 64)
    (fits : ∀ st ∈ steps (react p) (start wallets genesis) actions, Fits st.before st.input)
    {action : Action ι} {i : ι} {ev : Event ι}
    (moves : move schedule (run (react p) (start wallets genesis) actions).state action = some (i, ev))
    (once : (creditedIn (run (react p) (start wallets genesis) actions).output ++
      creditedIn (react p (run (react p) (start wallets genesis) actions).state action).output).Nodup)
    (room : ∀ tx, ((run (react p) (start wallets genesis) actions).state.parts i).paymentOf ev = some tx →
      (attempts i (steps (react p) (start wallets genesis) actions)).length + 1 < 2 ^ 64 ∧
        totalAmount ((attempts i (steps (react p) (start wallets genesis) actions)).filter
          fun other => other.toAddr = tx.toAddr) + tx.amount.toNat < 2 ^ 64) :
    ((run (react p) (start wallets genesis) actions).state.parts i).AdditionsFit ev := by
  obtain ⟨counted, entries⟩ := books_run fits i
  constructor
  · intro tx pays
    obtain ⟨few, small⟩ := room tx pays
    obtain ⟨line, now, publishOk, _, pays⟩ := Node.stdin_of_paymentOf pays
    have different := (Node.payment_spec pays).2.2.2.1
    rw [wallet_part] at different
    rw [Node.PaymentFits, counted, entries _ different.symm]
    exact ⟨few, small⟩
  · intro tx admits
    rw [creditedIn_move moves, admits] at once
    exact credit_fits supply moves admits once

/-- When no transaction is credited twice, additions overflow nowhere in
the network exactly when no node goes for 2^64 payments, or for payments to
one address that sum up to 2^64: the entry that a node keeps for an address
it pays only ever grows. -/
theorem no_overflow_iff (supply : ∑ i, (genesis i).toNat < 2 ^ 64)
    (once : (creditedIn (run (react p) (start wallets genesis) actions).output).Nodup) :
    (∀ st ∈ steps (react p) (start wallets genesis) actions, Fits st.before st.input) ↔
      ∀ i, (attempts i (steps (react p) (start wallets genesis) actions)).length < 2 ^ 64 ∧
        ∀ a, totalAmount ((attempts i (steps (react p) (start wallets genesis) actions)).filter
          fun tx => tx.toAddr = a) < 2 ^ 64 := by
  constructor
  · intro fits i
    obtain ⟨counted, entries⟩ := books_run fits i
    refine ⟨counted ▸ UInt64.toNat_lt _, fun a => ?_⟩
    by_cases own : a = (wallets i).address
    · rw [own, attempts_own fits i]
      exact Nat.two_pow_pos 64
    · rw [← entries a own]
      exact Ledger.funds_lt _ a
  · intro bounds
    induction actions using List.reverseRecOn with
    | nil => intro st member; cases member
    | append_singleton before action ih =>
      obtain ⟨split, output⟩ := last_step p wallets genesis before action
      rw [output, creditedIn_append] at once
      rw [split] at bounds ⊢
      have earlier := ih once.of_append_left fun i => by
        obtain ⟨few, small⟩ := bounds i
        rw [attempts_length_append] at few
        refine ⟨by omega, fun a => ?_⟩
        have whole := small a
        rw [attempts_amount_append] at whole
        omega
      intro st member
      rcases List.mem_append.mp member with inside | last
      · exact earlier st inside
      rw [List.mem_singleton] at last
      subst last
      rintro ⟨i, ev⟩ moves
      refine next_fits supply earlier moves once fun tx pays => ?_
      obtain ⟨few, small⟩ := bounds i
      have now : attempts i [⟨(run (react p) (start wallets genesis) before).state, action,
          react p (run (react p) (start wallets genesis) before).state action⟩] = [tx] := by
        rw [attempts_cons, attempt_of_move moves, pays]
        rfl
      have whole := small tx.toAddr
      have paid : totalAmount ([tx].filter fun other => other.toAddr = tx.toAddr) = tx.amount.toNat := by simp
      rw [attempts_length_append, now, List.length_singleton] at few
      rw [attempts_amount_append, now, paid] at whole
      exact ⟨few, whole⟩

/-- All the money goes to wallet 1, back to wallet 2, and is sent once more. -/
def thereAndBack : List (Action (Fin 2)) :=
  [.connect payer payee, .connect payee payer,
    .command payer "send 0x0101010101010101010101010101010101010101 9223372036854775808" 0 false,
    .deliver (.request payer payee ⟨(samplePayment 0x8000000000000000 0).toRlpBytes⟩),
    .command payee "send 0x0202020202020202020202020202020202020202 9223372036854775808" 0 false,
    .deliver (.request payee payer ⟨(SignedTransaction.create (sampleWallet 1)
      (sampleWallet 2).address 0x8000000000000000 0 0).toRlpBytes⟩),
    .command payer "send 0x0101010101010101010101010101010101010101 9223372036854775808" 1 false]

theorem no_overflow_iff_thereAndBack :
    (∀ st ∈ steps (react .dev) (start samplePair ![0x8000000000000000, 0]) thereAndBack,
        Fits st.before st.input) ↔
      ∀ i, (attempts i (steps (react .dev) (start samplePair ![0x8000000000000000, 0])
          thereAndBack)).length < 2 ^ 64 ∧
        ∀ a, totalAmount ((attempts i (steps (react .dev) (start samplePair ![0x8000000000000000, 0])
          thereAndBack)).filter fun tx => tx.toAddr = a) < 2 ^ 64 :=
  no_overflow_iff (by decide +kernel) (by decide +kernel)

/-- The entry for wallet 1 in the payer's own ledger overflows. -/
theorem thereAndBack_overflows :
    (∑ i, ((![0x8000000000000000, 0] : Fin 2 → UInt64) i).toNat) < 2 ^ 64 ∧
      (creditedIn (run (react .dev) (start samplePair ![0x8000000000000000, 0]) thereAndBack).output).Nodup ∧
      ¬ ∀ st ∈ steps (react .dev) (start samplePair ![0x8000000000000000, 0]) thereAndBack,
        Fits st.before st.input := by
  decide +kernel

end Runs
end Network
end SecureExchange
