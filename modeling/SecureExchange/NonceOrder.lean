import SecureExchange.Operations
import SecureExchange.Sample

namespace SecureExchange
open Reactive

namespace Ledger

/-- The nonce argument of a successful transfer from an address. -/
def sendOf (a : Address) : Operation × Returned → Option UInt64
  | (.transfer fromAddr _ _ nonce, .transferred (.ok ())) => if fromAddr = a then some nonce else none
  | _ => none

/-- The nonce arguments of the successful transfers from an address, in order. -/
def sendsOf (a : Address) (log : List (Operation × Returned)) : List UInt64 := log.filterMap (sendOf a)

@[simp] theorem sendsOf_append (a : Address) (left right : List (Operation × Returned)) :
    sendsOf a (left ++ right) = sendsOf a left ++ sendsOf a right := List.filterMap_append

@[simp] theorem sendsOf_nil (a : Address) : sendsOf a [] = [] := rfl

theorem toNat_ofNat_of_small {k : Nat} (small : k < 2 ^ 64) : (UInt64.ofNat k).toNat = k :=
  UInt64.toNat_ofNat_of_lt' small

/-- Nonce arguments that count up from zero. -/
def InOrder (sends : List UInt64) : Prop := ∀ k nonce, sends[k]? = some nonce → nonce = UInt64.ofNat k

theorem InOrder.concat {sends : List UInt64} {nonce : UInt64} (ordered : InOrder sends)
    (next : nonce = UInt64.ofNat sends.length) : InOrder (sends ++ [nonce]) := by
  intro k found atIndex
  rcases Nat.lt_trichotomy k sends.length with earlier | here | later
  · rw [List.getElem?_append_left earlier] at atIndex
    exact ordered k found atIndex
  · rw [List.getElem?_append_right (by omega), here, Nat.sub_self] at atIndex
    cases atIndex
    rw [here]
    exact next
  · rw [List.getElem?_eq_none (by rw [List.length_append, List.length_singleton]; omega)] at atIndex
    cases atIndex

section Steps
variable {p : Profile} {l : Ledger} {operation : Operation}

theorem serve_spec (p : Profile) (l : Ledger) (operation : Operation) :
    (∃ l' value, Performed p l operation (.returned l' value) ∧
        serve p l operation = ⟨l', [(operation, value)], false⟩) ∨
      ∃ l', Performed p l operation (.panicked l') ∧ serve p l operation = ⟨l', [], true⟩ := by
  have outcome := l.perform_spec p operation
  cases result : l.perform p operation with
  | returned l' value =>
    rw [result] at outcome
    exact Or.inl ⟨l', value, outcome, by simp only [serve, result]⟩
  | panicked l' =>
    rw [result] at outcome
    exact Or.inr ⟨l', outcome, by simp only [serve, result]⟩

/-- A call that returns leaves every nonce alone, but for the sender's when
it is a successful transfer. -/
theorem nextNonce_performed {l' : Ledger} {value : Returned}
    (outcome : Performed p l operation (.returned l' value)) (a : Address) :
    l'.nextNonce a = l.nextNonce a + UInt64.ofNat (sendsOf a [(operation, value)]).length := by
  cases outcome with
  | @opened b balance missing =>
    have stays : sendsOf a [(Operation.register b balance, Returned.registered true)] = [] := rfl
    rw [stays, List.length_nil]
    by_cases same : a = b
    · subst same
      rw [nextNonce_of_account (account_set_self ..), nextNonce_of_missing missing]
      rfl
    · rw [nextNonce_congr (account_set_ne l same _)]
      exact (UInt64.add_zero _).symm
  | known => exact (UInt64.add_zero _).symm
  | credited =>
    rw [nextNonce_plus]
    exact (UInt64.add_zero _).symm
  | refused => exact (UInt64.add_zero _).symm
  | @moved fromAddr toAddr amount nonce accepts =>
    rw [nextNonce_plus]
    by_cases payer : fromAddr = a
    · subst payer
      rw [accepts.1.nextNonce_debited]
      simp [sendsOf, sendOf]
    · rw [nextNonce_congr (account_debited_ne l (Ne.symm payer) amount)]
      simp [sendsOf, sendOf, payer]

/-- A successful transfer carries the sender's next nonce. -/
theorem send_performed {l' : Ledger} {value : Returned} {a : Address} {nonce : UInt64}
    (outcome : Performed p l operation (.returned l' value)) (sends : sendOf a (operation, value) = some nonce) :
    nonce = l.nextNonce a ∧ ∃ toAddr amount, operation = .transfer a toAddr amount nonce ∧
      value = .transferred (.ok ()) := by
  cases outcome with
  | @moved fromAddr toAddr amount n accepts =>
    simp only [sendOf] at sends
    split at sends
    · rename_i payer
      subst payer
      cases sends
      exact ⟨accepts.2, toAddr, amount, rfl, rfl⟩
    · cases sends
  | opened | known | credited | refused => cases sends

theorem account_performed {l' : Ledger} {value : Returned} (outcome : Performed p l operation (.returned l' value))
    {a : Address} {state : AccountState} (found : l.account a = some state) :
    ∃ state', l'.account a = some state' := by
  have written : ∀ (m : Ledger) (b : Address) (amount : UInt64), (∃ s, m.account a = some s) →
      ∃ s, (m.plus b amount).account a = some s := by
    rintro m b amount ⟨s, known⟩
    by_cases same : a = b
    · subst same
      exact ⟨_, account_set_self ..⟩
    · exact ⟨s, by rw [account_plus_ne m same, known]⟩
  cases outcome with
  | @opened b balance missing =>
    have different : a ≠ b := fun same => by rw [← same, found] at missing; cases missing
    exact ⟨state, by rw [account_set_ne l different, found]⟩
  | known | refused => exact ⟨state, found⟩
  | @credited b amount => exact written l b amount ⟨state, found⟩
  | @moved fromAddr toAddr amount n accepts =>
    refine written _ toAddr amount ?_
    by_cases payer : a = fromAddr
    · subst payer
      exact ⟨⟨state.balance - amount, state.nonce + 1⟩, by simp only [debited, found, account_set_self]⟩
    · exact ⟨state, by rw [account_debited_ne l payer, found]⟩

end Steps

section Runs
variable {p : Profile} {operations : List Operation}

/-- Each nonce counts the successful transfers of its address, wrapping. -/
theorem nextNonce_run (live : (run (serve p) new operations).halted = false) (a : Address) :
    (run (serve p) new operations).state.nextNonce a =
      UInt64.ofNat (sendsOf a (run (serve p) new operations).output).length := by
  let I : Ledger → List (Operation × Returned) → Prop := fun l log =>
    l.nextNonce a = UInt64.ofNat (sendsOf a log).length
  have keep : ∀ l log operation, I l log → True → (serve p l operation).halted = false →
      I (serve p l operation).state (log ++ (serve p l operation).output) := by
    intro l log operation holds _ running
    rcases serve_spec p l operation with ⟨l', value, outcome, reaction⟩ | ⟨l', _, reaction⟩
    · rw [reaction]
      have counted := nextNonce_performed outcome a
      simp only [I] at holds ⊢
      rw [counted, holds, sendsOf_append, List.length_append, UInt64.ofNat_add]
    · rw [reaction] at running
      cases running
  exact run_invariant (I := I) keep rfl (fun _ _ => trivial) live

/-- The successful transfers from an address carry the nonces 0, 1, 2, ... -/
theorem inOrder_run (a : Address) : InOrder (sendsOf a (run (serve p) new operations).output) := by
  let I : Ledger → List (Operation × Returned) → Prop := fun l log =>
    l.nextNonce a = UInt64.ofNat (sendsOf a log).length ∧ InOrder (sendsOf a log)
  have keep : ∀ l log operation, I l log → True → (serve p l operation).halted = false →
      I (serve p l operation).state (log ++ (serve p l operation).output) := by
    rintro l log operation ⟨counted, ordered⟩ - running
    rcases serve_spec p l operation with ⟨l', value, outcome, reaction⟩ | ⟨l', _, reaction⟩
    · rw [reaction]
      refine ⟨?_, ?_⟩
      · rw [nextNonce_performed outcome a, counted, sendsOf_append, List.length_append, UInt64.ofNat_add]
      · rw [sendsOf_append]
        cases sends : sendOf a (operation, value) with
        | none =>
          rw [show sendsOf a [(operation, value)] = [] by simp [sendsOf, sends], List.append_nil]
          exact ordered
        | some nonce =>
          rw [show sendsOf a [(operation, value)] = [nonce] by simp [sendsOf, sends]]
          exact ordered.concat ((send_performed outcome sends).1.trans counted)
    · rw [reaction] at running
      cases running
  have stop : ∀ l log operation, I l log → True → (serve p l operation).halted = true →
      InOrder (sendsOf a (log ++ (serve p l operation).output)) := by
    rintro l log operation ⟨_, ordered⟩ - halted
    rcases serve_spec p l operation with ⟨l', value, _, reaction⟩ | ⟨l', _, reaction⟩
    · rw [reaction] at halted
      cases halted
    · rw [reaction, List.append_nil]
      exact ordered
  have begin : I new [] := ⟨rfl, fun k nonce atIndex => by simp at atIndex⟩
  exact run_rule (P := fun r => InOrder (sendsOf a r.output)) keep stop (fun l log holds => holds.2) begin
    fun _ _ => trivial

theorem length_output_run (p : Profile) (operations : List Operation) :
    (run (serve p) new operations).output.length ≤ operations.length := by
  refine length_output_le (fun l operation => ?_) new operations
  rcases serve_spec p l operation with ⟨l', value, _, reaction⟩ | ⟨l', _, reaction⟩
  · rw [reaction]
    exact Nat.le_refl 1
  · rw [reaction]
    exact Nat.zero_le 1

theorem length_sends_le (p : Profile) (operations : List Operation) (a : Address) :
    (sendsOf a (run (serve p) new operations).output).length ≤ operations.length :=
  Nat.le_trans (List.length_filterMap_le ..) (length_output_run p operations)

/-- A call that is not a successful transfer from an address leaves its nonce. -/
theorem nonce_kept {st : Step Ledger Operation (Operation × Returned)} {a : Address}
    (member : st ∈ steps (serve p) new operations) (live : st.reaction.halted = false)
    (noSend : sendsOf a st.reaction.output = []) (known : (st.before.account a).isSome) :
    st.reaction.state.nonce a = st.before.nonce a := by
  rw [reaction_of_mem_steps member] at live noSend ⊢
  obtain ⟨state, found⟩ := Option.isSome_iff_exists.mp known
  rcases serve_spec p st.before st.input with ⟨l', value, outcome, reaction⟩ | ⟨l', _, reaction⟩
  · rw [reaction] at noSend ⊢
    obtain ⟨state', found'⟩ := account_performed outcome found
    have counted := nextNonce_performed outcome a
    rw [noSend, List.length_nil, nextNonce_of_account found, nextNonce_of_account found'] at counted
    rw [nonce, nonce, found, found', Option.map_some, Option.map_some, counted]
    exact congrArg some (UInt64.add_zero _)
  · rw [reaction] at live
    cases live

/-- A nonce that was used once is behind the sender's next one for good. -/
theorem nonce_spent {a : Address} {nonce : UInt64} (few : operations.length < 2 ^ 64)
    (live : (run (serve p) new operations).halted = false)
    (sent : nonce ∈ sendsOf a (run (serve p) new operations).output) :
    nonce ≠ (run (serve p) new operations).state.nextNonce a := by
  obtain ⟨k, atIndex⟩ := List.mem_iff_getElem?.mp sent
  have small := (List.getElem?_eq_some_iff.mp atIndex).1
  have bound := length_sends_le p operations a
  rw [nextNonce_run live, inOrder_run a k nonce atIndex]
  intro same
  have numbers := congrArg UInt64.toNat same
  rw [toNat_ofNat_of_small (by omega), toNat_ofNat_of_small (by omega)] at numbers
  omega

/-- A transfer with a nonce that its sender has used is refused. -/
theorem replay_refused {a toAddr toAddr' : Address} {amount amount' nonce : UInt64}
    {early between : List Operation} (few : (early ++ .transfer a toAddr amount nonce :: between).length < 2 ^ 64)
    (live : (run (serve p) new (early ++ .transfer a toAddr amount nonce :: between)).halted = false)
    (succeeded : (serve p (run (serve p) new early).state (.transfer a toAddr amount nonce)).output =
      [(.transfer a toAddr amount nonce, .transferred (.ok ()))]) :
    ∃ e, serve p (run (serve p) new (early ++ .transfer a toAddr amount nonce :: between)).state
        (.transfer a toAddr' amount' nonce) =
      ⟨(run (serve p) new (early ++ .transfer a toAddr amount nonce :: between)).state,
        [(.transfer a toAddr' amount' nonce, .transferred (.error e))], false⟩ := by
  have sent : nonce ∈ sendsOf a
      (run (serve p) new (early ++ .transfer a toAddr amount nonce :: between)).output := by
    have member : Step.mk _ _ (serve p (run (serve p) new early).state (.transfer a toAddr amount nonce)) ∈
        steps (serve p) new (early ++ .transfer a toAddr amount nonce :: between) :=
      mem_steps_iff.mpr ⟨early, between, rfl, run_live_of_append live, rfl, rfl⟩
    have logged : (Operation.transfer a toAddr amount nonce, Returned.transferred (.ok ())) ∈
        (run (serve p) new (early ++ .transfer a toAddr amount nonce :: between)).output := by
      rw [run_output, List.mem_flatMap]
      exact ⟨_, member, by rw [succeeded]; exact List.mem_singleton_self _⟩
    exact List.mem_filterMap.mpr ⟨_, logged, by simp [sendOf]⟩
  have stale := nonce_spent few live sent
  have refused : ¬ (run (serve p) new (early ++ .transfer a toAddr amount nonce :: between)).state.Accepts
      a toAddr' amount' nonce := fun accepts => stale accepts.2
  obtain ⟨e, result⟩ := transfer_of_not_accepts (p := p) refused
  exact ⟨e, by simp only [serve, perform, result]⟩

/-- What holds of the nonces in a run of calls on a new ledger. -/
structure NonceDiscipline (p : Profile) (operations : List Operation) : Prop where
  /-- The `k`th successful transfer from an address carries the nonce `k`. -/
  numbered : ∀ a k (nonce : UInt64), (sendsOf a (run (serve p) new operations).output)[k]? = some nonce → nonce.toNat = k
  counted : (run (serve p) new operations).halted = false →
    ∀ a state, (run (serve p) new operations).state.account a = some state →
      state.nonce.toNat = (sendsOf a (run (serve p) new operations).output).length
  /-- No other call moves a nonce that is there, and a new account starts at zero. -/
  kept : ∀ st ∈ steps (serve p) new operations, st.reaction.halted = false →
    ∀ a, sendsOf a st.reaction.output = [] →
      ((st.before.account a).isSome → st.reaction.state.nonce a = st.before.nonce a) ∧
        st.reaction.state.nextNonce a = st.before.nextNonce a
  replay : ∀ early a toAddr amount nonce between toAddr' amount' rest,
    operations = early ++ .transfer a toAddr amount nonce :: between ++ .transfer a toAddr' amount' nonce :: rest →
    (run (serve p) new (early ++ .transfer a toAddr amount nonce :: between)).halted = false →
    (serve p (run (serve p) new early).state (.transfer a toAddr amount nonce)).output =
      [(.transfer a toAddr amount nonce, .transferred (.ok ()))] →
    ∃ e, serve p (run (serve p) new (early ++ .transfer a toAddr amount nonce :: between)).state
        (.transfer a toAddr' amount' nonce) =
      ⟨(run (serve p) new (early ++ .transfer a toAddr amount nonce :: between)).state,
        [(.transfer a toAddr' amount' nonce, .transferred (.error e))], false⟩

/-- Nonces count the successful transfers of their address, and none is
ever accepted twice. -/
theorem nonceDiscipline_run (p : Profile) (operations : List Operation) (few : operations.length < 2 ^ 64) :
    NonceDiscipline p operations := by
  constructor
  case numbered =>
    intro a k nonce atIndex
    have small := (List.getElem?_eq_some_iff.mp atIndex).1
    have bound := length_sends_le p operations a
    rw [inOrder_run a k nonce atIndex, toNat_ofNat_of_small (by omega)]
  case counted =>
    intro live a state found
    have bound := length_sends_le p operations a
    rw [← nextNonce_of_account found, nextNonce_run live, toNat_ofNat_of_small (by omega)]
  case kept =>
    intro st member live a noSend
    refine ⟨nonce_kept member live noSend, ?_⟩
    rw [reaction_of_mem_steps member] at live noSend ⊢
    rcases serve_spec p st.before st.input with ⟨l', value, outcome, reaction⟩ | ⟨l', _, reaction⟩
    · rw [reaction] at noSend ⊢
      rw [nextNonce_performed outcome a, noSend, List.length_nil]
      exact UInt64.add_zero _
    · rw [reaction] at live
      cases live
  case replay =>
    intro early a toAddr amount nonce between toAddr' amount' rest split live succeeded
    refine replay_refused ?_ live succeeded
    rw [split, List.length_append] at few
    omega

/-- A payment, the payer registered once more and paid itself, and the
payment replayed. -/
def replayed : List Operation :=
  [.register (sampleWallet 2).address 10, .transfer (sampleWallet 2).address (sampleWallet 1).address 4 0,
    .register (sampleWallet 2).address 50, .credit (sampleWallet 2).address 7,
    .transfer (sampleWallet 2).address (sampleWallet 1).address 4 0,
    .transfer (sampleWallet 2).address (sampleWallet 1).address 4 1]

theorem nonceDiscipline_replayed :
    replayed.length < 2 ^ 64 ∧ NonceDiscipline .dev replayed ∧
      (run (serve .dev) new replayed).halted = false ∧
      sendsOf (sampleWallet 2).address (run (serve .dev) new replayed).output = [0, 1] :=
  ⟨by decide, nonceDiscipline_run .dev replayed (by decide), by decide +kernel, by decide +kernel⟩

end Runs
end Ledger
end SecureExchange
