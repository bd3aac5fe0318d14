import SecureExchange.Atomicity
import SecureExchange.NonceOrder

namespace SecureExchange
open Reactive

namespace Ledger

/-- What a call puts into circulation if it succeeds. -/
def issued (l : Ledger) : Operation → Nat
  | .register a initialBalance => if l.account a = none then initialBalance.toNat else 0
  | .credit _ amount => amount.toNat
  | .transfer .. => 0

/-- The initial balances and credits of a run, those of a last call that
panics included. -/
def issuedIn (taken : List (Step Ledger Operation (Operation × Returned))) : Nat :=
  (taken.map fun st => st.before.issued st.input).sum

/-- No balance that a call computes leaves the `u64` range. -/
def BalancesFit (l : Ledger) : Operation → Prop
  | .register .. => True
  | .credit a amount => l.funds a + amount.toNat < 2 ^ 64
  | .transfer fromAddr toAddr amount nonce => l.Accepts fromAddr toAddr amount nonce →
    amount.toNat ≤ l.funds fromAddr ∧ l.funds toAddr + amount.toNat < 2 ^ 64

/-- No nonce that a call computes leaves the `u64` range. -/
def NonceFits (l : Ledger) : Operation → Prop
  | .transfer fromAddr toAddr amount nonce => l.Accepts fromAddr toAddr amount nonce →
    (l.nextNonce fromAddr).toNat + 1 < 2 ^ 64
  | _ => True

/-- A call that passes the checks of a transfer from an address. -/
def SendsFrom (a : Address) (st : Step Ledger Operation (Operation × Returned)) : Prop :=
  match st.input with
  | .transfer fromAddr toAddr amount nonce => fromAddr = a ∧ st.before.Accepts fromAddr toAddr amount nonce
  | _ => False

instance (a : Address) : DecidablePred (SendsFrom a) := fun st => by
  unfold SendsFrom
  split <;> infer_instance

def acceptedFrom (a : Address) (taken : List (Step Ledger Operation (Operation × Returned))) : Nat :=
  taken.countP fun st => SendsFrom a st

/-- One quantity added up over a log. -/
def tally (f : Operation × Returned → Nat) (log : List (Operation × Returned)) : Nat := (log.map f).sum

@[simp] theorem tally_append (f : Operation × Returned → Nat) (left right : List (Operation × Returned)) :
    tally f (left ++ right) = tally f left + tally f right := by
  rw [tally, List.map_append, List.sum_append]
  rfl

@[simp] theorem tally_singleton (f : Operation × Returned → Nat) (entry : Operation × Returned) :
    tally f [entry] = f entry := Nat.add_zero _

/-- The initial balance of a successful registration of an address. -/
def openedFor (a : Address) : Operation × Returned → Nat
  | (.register b initialBalance, .registered true) => if b = a then initialBalance.toNat else 0
  | _ => 0

def creditedTo (a : Address) : Operation × Returned → Nat
  | (.credit b amount, .credited) => if b = a then amount.toNat else 0
  | _ => 0

def movedTo (a : Address) : Operation × Returned → Nat
  | (.transfer _ b amount _, .transferred (.ok ())) => if b = a then amount.toNat else 0
  | _ => 0

def movedFrom (a : Address) : Operation × Returned → Nat
  | (.transfer b _ amount _, .transferred (.ok ())) => if b = a then amount.toNat else 0
  | _ => 0

/-- What a successful call put into circulation, for whichever address. -/
def issue : Operation × Returned → Nat
  | (.register _ initialBalance, .registered true) => initialBalance.toNat
  | (.credit _ amount, .credited) => amount.toNat
  | _ => 0

/-- A successful registration of an address. -/
def registers (a : Address) : Operation × Returned → Bool
  | (.register b _, .registered true) => b = a
  | _ => false

/-- A call that leaves an account under an address. -/
def Reaches (a : Address) : Operation × Returned → Prop
  | (.register b _, .registered true) => b = a
  | (.credit b _, .credited) => b = a
  | (.transfer _ b _ _, .transferred (.ok ())) => b = a
  | _ => False

section Steps
variable {p : Profile} {l l' : Ledger} {operation : Operation} {value : Returned}

/-- All balances together bound each sum that a call computes. -/
theorem balancesFit_of_supply (room : l.supply + l.issued operation < 2 ^ 64) : l.BalancesFit operation := by
  cases operation with
  | register => trivial
  | credit a amount =>
    have share := l.funds_le_supply a
    simp only [issued, BalancesFit] at room ⊢
    omega
  | transfer fromAddr toAddr amount nonce =>
    intro accepts
    obtain ⟨different, _, covered⟩ := accepts.1
    have shares := l.two_funds_le_supply different.symm
    simp only [issued] at room
    exact ⟨covered, by omega⟩

theorem supply_performed (outcome : Performed p l operation (.returned l' value)) (fits : l.BalancesFit operation) :
    l'.supply = l.supply + issue (operation, value) := by
  cases outcome with
  | @opened a balance missing =>
    have whole := l.supply_set a (.new balance)
    rw [funds_of_missing missing] at whole
    exact whole
  | known | refused => rfl
  | credited => exact supply_plus fits
  | @moved fromAddr toAddr amount nonce accepts =>
    have sumFits := (fits accepts).2
    rw [← funds_congr (account_debited_ne l accepts.1.1.symm amount)] at sumFits
    rw [supply_plus sumFits, accepts.1.supply_debited]
    rfl

theorem issue_performed (outcome : Performed p l operation (.returned l' value)) :
    issue (operation, value) = l.issued operation := by
  cases outcome with
  | opened missing => simp only [issue, issued, if_pos missing]
  | known found => simp only [issue, issued, found, reduceCtorEq, if_false]
  | credited | refused | moved => rfl

/-- Every balance moves by what the call opened, credited, received or spent. -/
theorem funds_performed (outcome : Performed p l operation (.returned l' value)) (fits : l.BalancesFit operation)
    (a : Address) :
    l'.funds a + movedFrom a (operation, value) =
      l.funds a + openedFor a (operation, value) + creditedTo a (operation, value) +
        movedTo a (operation, value) := by
  cases outcome with
  | @opened b balance missing =>
    simp only [movedFrom, openedFor, creditedTo, movedTo]
    by_cases same : b = a
    · subst same
      rw [if_pos rfl, funds_of_account (account_set_self ..), funds_of_missing missing]
      exact (Nat.zero_add _).symm
    · rw [if_neg same, funds_congr (account_set_ne l (Ne.symm same) _)]
  | known | refused => rfl
  | @credited b amount =>
    simp only [movedFrom, openedFor, creditedTo, movedTo]
    by_cases same : b = a
    · subst same
      rw [if_pos rfl, funds_plus_of_fits fits, Nat.add_zero, Nat.add_zero, Nat.add_zero]
    · rw [if_neg same, funds_congr (account_plus_ne l (Ne.symm same) amount)]
  | @moved fromAddr toAddr amount nonce accepts =>
    have different := accepts.1.1
    have sumFits := (fits accepts).2
    have untouched := account_debited_ne l different.symm amount
    simp only [movedFrom, openedFor, creditedTo, movedTo]
    by_cases payee : toAddr = a
    · subst payee
      rw [if_neg different, if_pos rfl]
      rw [← funds_congr untouched] at sumFits
      rw [funds_plus_of_fits sumFits, funds_congr untouched]
      simp only [Nat.add_zero]
    · rw [if_neg payee, funds_congr (account_plus_ne _ (Ne.symm payee) amount)]
      by_cases payer : fromAddr = a
      · subst payer
        rw [if_pos rfl]
        exact accepts.1.funds_debited
      · rw [if_neg payer, funds_congr (account_debited_ne l (Ne.symm payer) amount)]

/-- Accounts are opened by the calls that reach them, and never closed. -/
theorem known_performed (outcome : Performed p l operation (.returned l' value)) (a : Address) :
    (l'.account a).isSome ↔ (l.account a).isSome ∨ Reaches a (operation, value) := by
  have keeps : (l.account a).isSome → (l'.account a).isSome := by
    intro known
    obtain ⟨state, found⟩ := Option.isSome_iff_exists.mp known
    obtain ⟨state', found'⟩ := account_performed outcome found
    rw [found']
    rfl
  cases outcome with
  | @opened b balance missing =>
    by_cases same : b = a
    · subst same
      simp [Reaches]
    · simp only [account_set_ne l (Ne.symm same), Reaches, same, or_false]
  | known | refused => simp only [Reaches, or_false]
  | @credited b amount =>
    by_cases same : b = a
    · subst same
      simp [Reaches, plus]
    · simp only [account_plus_ne l (Ne.symm same), Reaches, same, or_false]
  | @moved fromAddr toAddr amount nonce accepts =>
    by_cases payee : toAddr = a
    · subst payee
      simp [Reaches, plus]
    · simp only [Reaches, payee, or_false]
      refine ⟨fun known => ?_, keeps⟩
      rw [account_plus_ne _ (Ne.symm payee)] at known
      by_cases payer : fromAddr = a
      · subst payer
        obtain ⟨sender, found, _⟩ := accepts.1.account
        rw [found]
        rfl
      · rwa [account_debited_ne l (Ne.symm payer)] at known

theorem registers_missing {a : Address} (outcome : Performed p l operation (.returned l' value))
    (registered : registers a (operation, value) = true) : l.account a = none := by
  cases outcome with
  | opened missing =>
    have same := of_decide_eq_true registered
    rw [← same]
    exact missing
  | known | credited | refused | moved => cases registered

/-- A call whose numbers all fit does not panic. -/
theorem serve_live (fits : l.BalancesFit operation) (nonceFits : l.NonceFits operation) :
    (serve p l operation).halted = false := by
  rcases serve_spec p l operation with ⟨l', value, _, reaction⟩ | ⟨l', outcome, reaction⟩
  · rw [reaction]
  · cases outcome with
    | creditPanic _ full => exact absurd fits (Nat.not_lt.mpr full)
    | noncePanic accepts _ full => exact absurd (nonceFits accepts) (Nat.not_lt.mpr full)
    | movePanic accepts _ full => exact absurd (fits accepts).2 (Nat.not_lt.mpr full)

end Steps

section Runs
variable {p : Profile} {operations : List Operation}

/-- The bound on what a whole run issues leaves room at each of its calls. -/
theorem room_steps {l : Ledger} (bound : l.supply + issuedIn (steps (serve p) l operations) < 2 ^ 64) :
    ∀ st ∈ steps (serve p) l operations, st.before.supply + st.before.issued st.input < 2 ^ 64 := by
  induction operations generalizing l with
  | nil => simp
  | cons operation rest ih =>
    intro st member
    rcases serve_spec p l operation with ⟨l', value, outcome, reaction⟩ | ⟨l', _, reaction⟩
    · have live : (serve p l operation).halted = false := by rw [reaction]
      rw [steps_cons_live live] at bound member
      rw [issuedIn, List.map_cons, List.sum_cons, ← issuedIn] at bound
      rcases List.mem_cons.mp member with rfl | later
      · simp only at bound ⊢
        omega
      · have room : l.supply + l.issued operation < 2 ^ 64 := by
          simp only at bound
          omega
        have grown := supply_performed outcome (balancesFit_of_supply room)
        rw [issue_performed outcome] at grown
        have after : (serve p l operation).state = l' := by rw [reaction]
        rw [after] at bound later
        refine ih ?_ st later
        simp only at bound
        omega
    · have halted : (serve p l operation).halted = true := by rw [reaction]
      rw [steps_cons_halted halted] at bound member
      rw [List.mem_singleton] at member
      subst member
      simpa [issuedIn] using bound

theorem balancesFit_run (bound : issuedIn (steps (serve p) new operations) < 2 ^ 64) :
    ∀ st ∈ steps (serve p) new operations, st.before.BalancesFit st.input := by
  intro st member
  have empty : new.supply = 0 := rfl
  exact balancesFit_of_supply (room_steps (by rwa [empty, Nat.zero_add]) st member)

/-- A ledger as its log of successful calls accounts for it. -/
structure Balanced (l : Ledger) (log : List (Operation × Returned)) : Prop where
  identity : ∀ a, l.funds a + tally (movedFrom a) log =
    tally (openedFor a) log + tally (creditedTo a) log + tally (movedTo a) log
  whole : l.supply = tally issue log
  known : ∀ a, (l.account a).isSome ↔ ∃ entry ∈ log, Reaches a entry
  openedOnce : ∀ a, (log.filter (registers a)).length ≤ 1

theorem reaches_of_registers {a : Address} {entry : Operation × Returned} (registered : registers a entry = true) :
    Reaches a entry := by
  unfold registers at registered
  split at registered
  · have same := of_decide_eq_true registered
    exact same
  · cases registered

theorem Balanced.performed {l l' : Ledger} {log : List (Operation × Returned)} {operation : Operation}
    {value : Returned} (books : l.Balanced log) (outcome : Performed p l operation (.returned l' value))
    (fits : l.BalancesFit operation) : l'.Balanced (log ++ [(operation, value)]) := by
  constructor
  case identity =>
    intro a
    have before := books.identity a
    have moved := funds_performed outcome fits a
    simp only [tally_append, tally_singleton]
    omega
  case whole =>
    rw [supply_performed outcome fits, books.whole, tally_append, tally_singleton]
  case known =>
    intro a
    rw [known_performed outcome a, books.known a]
    simp only [List.mem_append, List.mem_singleton, or_and_right, exists_or, exists_eq_left]
  case openedOnce =>
    intro a
    rw [List.filter_append, List.length_append]
    have once := books.openedOnce a
    cases registered : registers a (operation, value) with
    | false =>
      rw [List.filter_cons_of_neg (by rw [registered]; exact Bool.false_ne_true)]
      exact once
    | true =>
      -- An address that was registered before would have an account.
      have missing := registers_missing outcome registered
      have unopened : log.filter (registers a) = [] := by
        rw [List.filter_eq_nil_iff]
        intro entry member earlier
        have there := (books.known a).mpr ⟨entry, member, reaches_of_registers earlier⟩
        rw [missing] at there
        cases there
      rw [unopened, List.filter_cons_of_pos registered]
      exact Nat.le_refl 1

theorem balanced_run (fits : ∀ st ∈ steps (serve p) new operations, st.before.BalancesFit st.input)
    (live : (run (serve p) new operations).halted = false) :
    (run (serve p) new operations).state.Balanced (run (serve p) new operations).output := by
  have keep : ∀ l log operation, Balanced l log → l.BalancesFit operation → (serve p l operation).halted = false →
      Balanced (serve p l operation).state (log ++ (serve p l operation).output) := by
    intro l log operation books fit running
    rcases serve_spec p l operation with ⟨l', value, outcome, reaction⟩ | ⟨l', _, reaction⟩
    · rw [reaction]
      exact books.performed outcome fit
    · rw [reaction] at running
      cases running
  have begin : Balanced new [] :=
    ⟨fun _ => rfl, rfl, fun _ => by simp [account, new], fun _ => Nat.zero_le 1⟩
  exact run_invariant keep begin fits live

theorem sends_le_accepted (a : Address) (taken : List (Step Ledger Operation (Operation × Returned)))
    (answers : ∀ st ∈ taken, st.reaction = serve p st.before st.input) :
    (sendsOf a (taken.flatMap fun st => st.reaction.output)).length ≤ acceptedFrom a taken := by
  induction taken with
  | nil => exact Nat.le_refl 0
  | cons st rest ih =>
    have later := ih fun st' member => answers st' (List.mem_cons_of_mem _ member)
    have here : (sendsOf a st.reaction.output).length ≤ if SendsFrom a st then 1 else 0 := by
      rw [answers st (List.mem_cons_self ..)]
      rcases serve_spec p st.before st.input with ⟨l', value, outcome, reaction⟩ | ⟨l', _, reaction⟩
      · rw [reaction]
        cases sends : sendOf a (st.input, value) with
        | none => simp [sendsOf, sends]
        | some nonce =>
          obtain ⟨_, toAddr, amount, input, result⟩ := send_performed outcome sends
          have accepted : SendsFrom a st := by
            rw [input, result] at outcome
            cases outcome with
            | moved accepts =>
              simp only [SendsFrom, input]
              exact ⟨trivial, accepts⟩
          simp [sendsOf, sends, accepted]
      · rw [reaction]
        exact Nat.zero_le _
    rw [List.flatMap_cons, sendsOf_append, List.length_append, acceptedFrom, List.countP_cons, ← acceptedFrom]
    simp only [decide_eq_true_eq]
    omega

/-- The nonces fit as long as no address makes 2^64 accepted transfers. -/
theorem nonceFits_run (few : ∀ a, acceptedFrom a (steps (serve p) new operations) < 2 ^ 64) :
    ∀ st ∈ steps (serve p) new operations, st.before.NonceFits st.input := by
  intro st member
  obtain ⟨before, after, split, live, found, _⟩ := mem_steps_iff.mp member
  cases call : st.input with
  | register | credit => trivial
  | transfer fromAddr toAddr amount nonce =>
    intro accepts
    have accepted : SendsFrom fromAddr st := by
      simp only [SendsFrom, call]
      exact ⟨trivial, accepts⟩
    have earlier := sends_le_accepted fromAddr (steps (serve p) new before)
      fun _ member => reaction_of_mem_steps member
    rw [← run_output] at earlier
    have total := few fromAddr
    have cut : steps (serve p) new operations =
        steps (serve p) new before ++ steps (serve p) st.before (st.input :: after) := by
      rw [split, steps_append live, found]
    have current : 1 ≤ acceptedFrom fromAddr (steps (serve p) st.before (st.input :: after)) := by
      refine List.countP_pos_iff.mpr ⟨⟨st.before, st.input, serve p st.before st.input⟩, by simp [steps], ?_⟩
      exact decide_eq_true accepted
    rw [cut, acceptedFrom, List.countP_append, ← acceptedFrom, ← acceptedFrom] at total
    rw [found, nextNonce_run live, toNat_ofNat_of_small (by omega)]
    omega

/-- What a run of calls on a new ledger computes and leaves. -/
structure Accounted (p : Profile) (operations : List Operation) : Prop where
  balancesFit : ∀ st ∈ steps (serve p) new operations, st.before.BalancesFit st.input
  noncesFit : (∀ a, acceptedFrom a (steps (serve p) new operations) < 2 ^ 64) →
    (∀ st ∈ steps (serve p) new operations, st.before.NonceFits st.input) ∧
      (run (serve p) new operations).halted = false
  balanced : (run (serve p) new operations).halted = false →
    (run (serve p) new operations).state.Balanced (run (serve p) new operations).output
  unmoved : ∀ st ∈ steps (serve p) new operations, st.reaction.halted = false →
    ∀ fromAddr toAddr amount nonce, st.input = .transfer fromAddr toAddr amount nonce →
      st.reaction.state.supply = st.before.supply

/-- Below a supply of 2^64, the books of a new ledger balance. -/
theorem accounted_run (p : Profile) (operations : List Operation)
    (bound : issuedIn (steps (serve p) new operations) < 2 ^ 64) : Accounted p operations := by
  have fits := balancesFit_run bound
  constructor
  case balancesFit => exact fits
  case noncesFit =>
    intro few
    have nonceFits := nonceFits_run few
    refine ⟨nonceFits, run_live_of_steps fun st member => ?_⟩
    rw [reaction_of_mem_steps member]
    exact serve_live (fits st member) (nonceFits st member)
  case balanced => exact balanced_run fits
  case unmoved =>
    intro st member live fromAddr toAddr amount nonce call
    rw [reaction_of_mem_steps member] at live ⊢
    rcases serve_spec p st.before st.input with ⟨l', value, outcome, reaction⟩ | ⟨l', _, reaction⟩
    · have grown := supply_performed outcome (fits st member)
      rw [issue_performed outcome, call] at grown
      rw [reaction]
      exact grown
    · rw [reaction] at live
      cases live

end Runs

theorem accounted_replayed :
    issuedIn (steps (serve .dev) new replayed) < 2 ^ 64 ∧ Accounted .dev replayed ∧
      (run (serve .dev) new replayed).state.supply = 17 :=
  ⟨by decide +kernel, accounted_run .dev replayed (by decide +kernel), by decide +kernel⟩

/-- One coin sent to and fro between two wallets. -/
def bounces : Nat → List Operation
  | 0 => []
  | k + 1 => bounces k ++ [.transfer (sampleWallet 2).address (sampleWallet 1).address 1 (UInt64.ofNat k),
      .transfer (sampleWallet 1).address (sampleWallet 2).address 1 (UInt64.ofNat k)]

/-- The coin issued, then sent to and fro, and in the end once more. -/
def shuttle (rounds : Nat) : List Operation :=
  .register (sampleWallet 2).address 1 :: (bounces rounds ++
    [.transfer (sampleWallet 2).address (sampleWallet 1).address 1 (UInt64.ofNat rounds)])

section Shuttle
variable {p : Profile}

theorem serve_of_fits {l : Ledger} {fromAddr toAddr : Address} {amount nonce : UInt64}
    (accepts : l.Accepts fromAddr toAddr amount nonce) (nonceFits : (l.nextNonce fromAddr).toNat + 1 < 2 ^ 64)
    (sumFits : l.funds toAddr + amount.toNat < 2 ^ 64) :
    ∃ l', serve p l (.transfer fromAddr toAddr amount nonce) =
        ⟨l', [(.transfer fromAddr toAddr amount nonce, .transferred (.ok ()))], false⟩ ∧
      l.Moves fromAddr toAddr amount l' := by
  refine ⟨(l.debited fromAddr amount).plus toAddr amount, ?_, accepts.1.moves nonceFits sumFits⟩
  simp only [serve, perform, transfer_of_accepts accepts]
  rw [if_neg (by omega), if_neg (by omega)]

theorem sampleAddress_ne : (sampleWallet 2).address ≠ (sampleWallet 1).address := by decide +kernel

theorem covers_coin {l : Ledger} {fromAddr toAddr : Address} (different : fromAddr ≠ toAddr)
    (coin : l.funds fromAddr = 1) : l.Covers fromAddr toAddr 1 :=
  ⟨different, by decide, coin.symm.le⟩

/-- The coin is back after each round, and each wallet has sent once more. -/
theorem bounces_run {l : Ledger} (coin : l.funds (sampleWallet 2).address = 1)
    (empty : l.funds (sampleWallet 1).address = 0) (fresh : ∀ a, l.nextNonce a = 0)
    {k : Nat} (small : k < 2 ^ 64) :
    (run (serve p) l (bounces k)).halted = false ∧
      (run (serve p) l (bounces k)).state.funds (sampleWallet 2).address = 1 ∧
      (run (serve p) l (bounces k)).state.funds (sampleWallet 1).address = 0 ∧
      (run (serve p) l (bounces k)).state.nextNonce (sampleWallet 2).address = UInt64.ofNat k ∧
      (run (serve p) l (bounces k)).state.nextNonce (sampleWallet 1).address = UInt64.ofNat k := by
  have one : (1 : UInt64).toNat = 1 := rfl
  induction k with
  | zero => exact ⟨rfl, coin, empty, fresh _, fresh _⟩
  | succ k ih =>
    obtain ⟨live, holder, other, sent, returned⟩ := ih (by omega)
    have number : (UInt64.ofNat k).toNat = k := toNat_ofNat_of_small (by omega)
    obtain ⟨there, first, moves⟩ := serve_of_fits (p := p)
      ⟨covers_coin sampleAddress_ne holder, sent.symm⟩
      (by rw [sent, number]; exact small) (by rw [other, one]; omega)
    have thereHolder := moves.payee
    have thereOther := moves.payer
    have thereSent := moves.payerNonce
    have thereReturned := moves.payeeNonce
    rw [other, one] at thereHolder
    rw [holder, one] at thereOther
    rw [returned] at thereReturned
    obtain ⟨back, second, moves'⟩ := serve_of_fits (p := p) (l := there)
      ⟨covers_coin sampleAddress_ne.symm thereHolder, thereReturned.symm⟩
      (by rw [thereReturned, number]; exact small) (by rw [one]; omega)
    have backHolder := moves'.payee
    have backOther := moves'.payer
    have backSent := moves'.payeeNonce
    have backReturned := moves'.payerNonce
    rw [one] at backHolder backOther
    rw [thereReturned] at backReturned
    have whole : (run (serve p) l (bounces (k + 1))).halted = false ∧
        (run (serve p) l (bounces (k + 1))).state = back := by
      rw [bounces, run_append live, run_cons_live (by rw [first]), first, run_cons_live (by rw [second]), second]
      exact ⟨rfl, rfl⟩
    rw [whole.2]
    have bumped : (UInt64.ofNat (k + 1)).toNat = k + 1 := toNat_ofNat_of_small small
    refine ⟨whole.1, by omega, by omega, UInt64.toNat_inj.mp ?_, UInt64.toNat_inj.mp ?_⟩
    · rw [backSent, thereSent, sent, number, bumped]
    · rw [backReturned, number, bumped]

theorem issuedIn_transfers (p : Profile) (l : Ledger) {operations : List Operation}
    (transfers : ∀ operation ∈ operations, ∃ fromAddr toAddr amount nonce,
      operation = .transfer fromAddr toAddr amount nonce) :
    issuedIn (steps (serve p) l operations) = 0 := by
  refine List.sum_eq_zero fun amount member => ?_
  obtain ⟨st, taken, rfl⟩ := List.mem_map.mp member
  obtain ⟨_, _, _, _, call⟩ := transfers st.input (input_mem_of_mem_steps taken)
  rw [call]
  rfl

theorem bounces_transfers (k : Nat) : ∀ operation ∈ bounces k, ∃ fromAddr toAddr amount nonce,
    operation = .transfer fromAddr toAddr amount nonce := by
  induction k with
  | zero => simp [bounces]
  | succ k ih =>
    intro operation member
    rw [bounces, List.mem_append] at member
    rcases member with earlier | last
    · exact ih operation earlier
    · rcases List.mem_cons.mp last with rfl | second
      · exact ⟨_, _, _, _, rfl⟩
      · exact ⟨_, _, _, _, List.mem_singleton.mp second⟩

/-- After 2^64 - 1 rounds one more transfer has no nonce left to go to. -/
theorem shuttle_full (p : Profile) {rounds : Nat} (full : rounds + 1 = 2 ^ 64) :
    issuedIn (steps (serve p) new (shuttle rounds)) < 2 ^ 64 ∧
      ∃ st ∈ steps (serve p) new (shuttle rounds), ¬ st.before.NonceFits st.input := by
  let opened := new.set (sampleWallet 2).address (.new 1)
  have first : serve p new (.register (sampleWallet 2).address 1) =
      ⟨opened, [(.register (sampleWallet 2).address 1, .registered true)], false⟩ := rfl
  have holder : opened.funds (sampleWallet 2).address = 1 := funds_of_account (account_set_self ..)
  have other : opened.funds (sampleWallet 1).address = 0 := by
    rw [funds_congr (account_set_ne new sampleAddress_ne.symm _)]
    rfl
  have fresh : ∀ a, opened.nextNonce a = 0 := by
    intro a
    by_cases same : a = (sampleWallet 2).address
    · subst same
      exact nextNonce_of_account (account_set_self ..)
    · rw [nextNonce_congr (account_set_ne new same _)]
      rfl
  obtain ⟨live, coin, _, sent, _⟩ := bounces_run (p := p) holder other fresh (show rounds < 2 ^ 64 by omega)
  have number : (UInt64.ofNat rounds).toNat = rounds := toNat_ofNat_of_small (by omega)
  rw [shuttle, steps_cons_live (by rw [first]), first]
  constructor
  · have transfers : ∀ operation ∈ bounces rounds ++
        [.transfer (sampleWallet 2).address (sampleWallet 1).address 1 (UInt64.ofNat rounds)],
        ∃ fromAddr toAddr amount nonce, operation = Operation.transfer fromAddr toAddr amount nonce := by
      intro operation member
      rcases List.mem_append.mp member with earlier | last
      · exact bounces_transfers rounds operation earlier
      · exact ⟨_, _, _, _, List.mem_singleton.mp last⟩
    have rest := issuedIn_transfers p opened transfers
    rw [issuedIn] at rest
    rw [issuedIn, List.map_cons, List.sum_cons, rest]
    decide +kernel
  · let final : Operation :=
      .transfer (sampleWallet 2).address (sampleWallet 1).address 1 (UInt64.ofNat rounds)
    let last := (run (serve p) opened (bounces rounds)).state
    refine ⟨⟨last, final, serve p last final⟩, ?_, ?_⟩
    · exact List.mem_cons_of_mem _ (mem_steps_iff.mpr ⟨bounces rounds, [], rfl, live, rfl, rfl⟩)
    · intro fits
      have room := fits ⟨covers_coin sampleAddress_ne coin, sent.symm⟩
      rw [sent, number] at room
      omega

/-- A supply of one coin is enough to run a nonce out of its range. -/
theorem shuttle_overflows :
    (issuedIn (steps (serve .dev) new (shuttle 0xffffffffffffffff)) < 2 ^ 64 ∧
        ∃ st ∈ steps (serve .dev) new (shuttle 0xffffffffffffffff), ¬ st.before.NonceFits st.input) ∧
      issuedIn (steps (serve .release) new (shuttle 0xffffffffffffffff)) < 2 ^ 64 ∧
        ∃ st ∈ steps (serve .release) new (shuttle 0xffffffffffffffff), ¬ st.before.NonceFits st.input :=
  ⟨shuttle_full .dev rfl, shuttle_full .release rfl⟩

end Shuttle
end Ledger
end SecureExchange
