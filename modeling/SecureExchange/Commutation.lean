import SecureExchange.Concurrent
import SecureExchange.Sample

namespace SecureExchange
open Reactive

namespace Ledger

/-- The result of a call whose sums wrap, read off the ledger it finds. -/
def answer (l : Ledger) : Operation → Returned
  | .register address _ => .registered (l.account address).isNone
  | .transfer fromAddr toAddr amount nonce => .transferred (l.verdict fromAddr toAddr amount nonce)
  | .credit .. => .credited

/-- The accounts that a call leaves when sums wrap. -/
def effect (l : Ledger) : Operation → Ledger
  | .register address initialBalance => (l.register address initialBalance).1
  | .transfer fromAddr toAddr amount nonce =>
    if l.Accepts fromAddr toAddr amount nonce then (l.debited fromAddr amount).plus toAddr amount else l
  | .credit address amount => l.plus address amount

/-- The account whose entry decides the result of a call. -/
def decider : Operation → Option Address
  | .register address _ => some address
  | .transfer fromAddr _ _ _ => some fromAddr
  | .credit .. => none

/-- The accounts whose entries a call may write. -/
def touched : Operation → List Address
  | .register address _ | .credit address _ => [address]
  | .transfer fromAddr toAddr _ _ => [fromAddr, toAddr]

/-- Neither call writes the entry that decides the other's result. -/
structure Independent (operation other : Operation) : Prop where
  undisturbed : ∀ a ∈ decider operation, a ∉ touched other
  undisturbing : ∀ a ∈ decider other, a ∉ touched operation

theorem Independent.symm {operation other : Operation} (independent : Independent operation other) :
    Independent other operation :=
  ⟨independent.undisturbing, independent.undisturbed⟩

/-- A transfer whose sums wrap does what its checks say. -/
theorem transfer_release (l : Ledger) (fromAddr toAddr : Address) (amount nonce : UInt64) :
    l.transfer .release fromAddr toAddr amount nonce =
      .returned (l.effect (.transfer fromAddr toAddr amount nonce)) (l.verdict fromAddr toAddr amount nonce) := by
  cases result : l.verdict fromAddr toAddr amount nonce with
  | ok =>
    have accepts : l.Accepts fromAddr toAddr amount nonce := (verdict_ok_iff ..).mp result
    rw [transfer_of_accepts accepts]
    simp only [reduceCtorEq, false_and, if_false, effect, if_pos accepts]
  | error e =>
    have refused : ¬ l.Accepts fromAddr toAddr amount nonce := fun accepts => by
      rw [(verdict_ok_iff ..).mpr accepts] at result
      cases result
    rw [transfer_of_error result, effect, if_neg refused]

/-- Where sums wrap, every call returns. -/
theorem serve_release (l : Ledger) (operation : Operation) :
    serve .release l operation = ⟨l.effect operation, [(operation, l.answer operation)], false⟩ := by
  cases operation with
  | register a balance =>
    cases found : l.account a with
    | none => simp only [serve, perform, register, effect, answer, found, Option.isNone_none]
    | some state => simp only [serve, perform, register, effect, answer, found, Option.isNone_some]
  | transfer fromAddr toAddr amount nonce => simp only [serve, perform, transfer_release, answer]
  | credit a amount =>
    simp only [serve, perform, credit, addToEntry_eq, reduceCtorEq, false_and, if_false, effect, answer]

/-- A run of calls whose sums wrap goes on to its end. -/
theorem run_release_cons (l : Ledger) (operation : Operation) (rest : List Operation) :
    run (serve .release) l (operation :: rest) =
      ⟨(run (serve .release) (l.effect operation) rest).state,
        (operation, l.answer operation) :: (run (serve .release) (l.effect operation) rest).output,
        (run (serve .release) (l.effect operation) rest).halted⟩ := by
  rw [run_cons_live (by rw [serve_release]), serve_release]
  rfl

section Entries
variable {l l' : Ledger}

theorem verdict_congr {fromAddr : Address} (same : l'.account fromAddr = l.account fromAddr) (toAddr : Address)
    (amount nonce : UInt64) : l'.verdict fromAddr toAddr amount nonce = l.verdict fromAddr toAddr amount nonce := by
  unfold verdict
  rw [same]

theorem Accepts.congr {fromAddr toAddr : Address} {amount nonce : UInt64}
    (same : l'.account fromAddr = l.account fromAddr) :
    l'.Accepts fromAddr toAddr amount nonce ↔ l.Accepts fromAddr toAddr amount nonce := by
  rw [Accepts, Accepts, Covers, Covers, funds_congr same, nextNonce_congr same]

theorem answer_congr {operation : Operation} (same : ∀ a ∈ decider operation, l'.account a = l.account a) :
    l'.answer operation = l.answer operation := by
  cases operation with
  | register a balance => simp only [answer, same a rfl]
  | transfer fromAddr toAddr amount nonce => rw [answer, answer, verdict_congr (same fromAddr rfl)]
  | credit a amount => rfl

theorem account_effect_ne {operation : Operation} {a : Address} (outside : a ∉ touched operation) :
    (l.effect operation).account a = l.account a := by
  cases operation with
  | register b balance =>
    have different : a ≠ b := fun same => outside (List.mem_singleton.mpr same)
    rw [effect, register]
    cases l.account b with
    | none => exact account_set_ne l different _
    | some state => rfl
  | credit b amount => exact account_plus_ne l (fun same => outside (List.mem_singleton.mpr same)) amount
  | transfer fromAddr toAddr amount nonce =>
    simp only [touched, List.mem_cons, List.not_mem_nil, or_false, not_or] at outside
    rw [effect]
    split
    · rw [account_plus_ne _ outside.2, account_debited_ne l outside.1]
    · rfl

theorem entryPlus_congr {a : Address} (same : l'.account a = l.account a) (amount : UInt64) :
    l'.entryPlus a amount = l.entryPlus a amount := by rw [entryPlus, entryPlus, same]

/-- Money arriving and a write to another entry pass each other. -/
theorem plus_set_ne (l : Ledger) {a b : Address} (different : a ≠ b) (s : AccountState) (amount : UInt64) :
    (l.set a s).plus b amount = (l.plus b amount).set a s := by
  rw [plus, plus, entryPlus_congr (account_set_ne l different.symm s), set_comm l different]

/-- Two sums of money pass each other, on one entry too, and whichever
comes first opens a missing entry. -/
theorem plus_comm (l : Ledger) (a b : Address) (x y : UInt64) : (l.plus a x).plus b y = (l.plus b y).plus a x := by
  by_cases same : a = b
  · subst same
    simp only [plus, set_set]
    cases found : l.account a with
    | none => simp only [entryPlus, account_set_self, found, AccountState.new, UInt64.add_comm x y]
    | some s => simp only [entryPlus, account_set_self, found, UInt64.add_assoc, UInt64.add_comm x y]
  · calc (l.plus a x).plus b y = (l.plus b y).set a (l.entryPlus a x) := plus_set_ne l same _ y
      _ = (l.plus b y).set a ((l.plus b y).entryPlus a x) := by rw [entryPlus_congr (account_plus_ne l same y)]

theorem debited_comm (l : Ledger) {a c : Address} (different : a ≠ c) (x y : UInt64) :
    (l.debited a x).debited c y = (l.debited c y).debited a x := by
  cases found : l.account a with
  | none =>
    have missing := (account_debited_ne l different y).trans found
    simp only [debited.eq_def l a, debited.eq_def (l.debited c y) a, found, missing]
  | some s =>
    have present := (account_debited_ne l different y).trans found
    simp only [debited.eq_def l a, debited.eq_def (l.debited c y) a, found, present]
    exact debited_set_ne l different _ y

/-- Two transfers that a ledger accepts from different senders pass each
other, whoever they pay. -/
theorem moved_comm {a b c d : Address} {x n y m : UInt64} (different : a ≠ c) (first : l.Accepts a b x n)
    (second : l.Accepts c d y m) :
    (((l.debited a x).plus b x).debited c y).plus d y = (((l.debited c y).plus d y).debited a x).plus b x := by
  have secondLater := (Accepts.congr (account_debited_ne l different.symm x)).mpr second
  have firstLater := (Accepts.congr (account_debited_ne l different y)).mpr first
  rw [debited_plus secondLater, debited_plus firstLater, debited_comm l different, plus_comm]

end Entries

section Effects
variable (l : Ledger)

/-- What a call that opens an account writes. -/
theorem effect_register (a : Address) (balance : UInt64) :
    l.effect (.register a balance) = if l.account a = none then l.set a (.new balance) else l := by
  rw [effect, register]
  cases found : l.account a with
  | none => rfl
  | some s => rfl

/-- A write to an entry passes a call that leaves the entry alone. -/
theorem effect_set_ne {operation : Operation} {a : Address} (outside : a ∉ touched operation) (s : AccountState) :
    (l.set a s).effect operation = (l.effect operation).set a s := by
  cases operation with
  | register b balance =>
    have different : a ≠ b := fun same => outside (List.mem_singleton.mpr same)
    rw [effect_register, effect_register, account_set_ne l different.symm]
    split
    · exact set_comm l different ..
    · rfl
  | credit b amount => exact plus_set_ne l (fun same => outside (List.mem_singleton.mpr same)) s amount
  | transfer fromAddr toAddr amount nonce =>
    simp only [touched, List.mem_cons, List.not_mem_nil, or_false, not_or] at outside
    have untouched := account_set_ne l (fun same => outside.1 same.symm) s
    simp only [effect, Accepts.congr untouched]
    split
    · rw [debited_set_ne l outside.1, plus_set_ne _ outside.2]
    · rfl

theorem effect_register_comm {a : Address} {balance : UInt64} {other : Operation}
    (independent : Independent (.register a balance) other) :
    (l.effect (.register a balance)).effect other = (l.effect other).effect (.register a balance) := by
  have outside := independent.undisturbed a rfl
  rw [effect_register, effect_register, account_effect_ne outside]
  split
  · exact effect_set_ne l outside _
  · rfl

theorem effect_transfer_credit {a b d : Address} {x n y : UInt64}
    (independent : Independent (.transfer a b x n) (.credit d y)) :
    (l.effect (.transfer a b x n)).effect (.credit d y) = (l.effect (.credit d y)).effect (.transfer a b x n) := by
  have untouched := account_effect_ne (l := l) (independent.undisturbed a rfl)
  simp only [effect] at untouched ⊢
  simp only [Accepts.congr untouched]
  split
  · rename_i accepts
    rw [debited_plus accepts, plus_comm]
  · rfl

theorem effect_transfer_comm {a b c d : Address} {x n y m : UInt64}
    (independent : Independent (.transfer a b x n) (.transfer c d y m)) :
    (l.effect (.transfer a b x n)).effect (.transfer c d y m) =
      (l.effect (.transfer c d y m)).effect (.transfer a b x n) := by
  have fromFirst := account_effect_ne (l := l) (independent.undisturbing c rfl)
  have fromSecond := account_effect_ne (l := l) (independent.undisturbed a rfl)
  have different : a ≠ c := fun same => independent.undisturbed a rfl (by simp [touched, same])
  rw [effect.eq_def (l.effect (.transfer a b x n)), effect.eq_def (l.effect (.transfer c d y m))]
  simp only [Accepts.congr fromFirst, Accepts.congr fromSecond]
  by_cases first : l.Accepts a b x n
  · by_cases second : l.Accepts c d y m
    · simp only [effect, if_pos first, if_pos second, moved_comm different first second]
    · simp only [effect, if_pos first, if_neg second]
  · simp only [effect, if_neg first]

/-- Calls that do not write each other's deciding entry pass each other. -/
theorem effect_comm {operation other : Operation} (independent : Independent operation other) :
    (l.effect operation).effect other = (l.effect other).effect operation := by
  cases operation with
  | register a balance => exact effect_register_comm l independent
  | credit a amount =>
    cases other with
    | register b balance => exact (effect_register_comm l independent.symm).symm
    | credit b amount' => exact plus_comm l a b amount amount'
    | transfer fromAddr toAddr amount' nonce => exact (effect_transfer_credit l independent.symm).symm
  | transfer fromAddr toAddr amount nonce =>
    cases other with
    | register b balance => exact (effect_register_comm l independent.symm).symm
    | credit b amount' => exact effect_transfer_credit l independent
    | transfer fromAddr' toAddr' amount' nonce' => exact effect_transfer_comm l independent

end Effects

theorem Independent.answer {l : Ledger} {operation other : Operation} (independent : Independent operation other) :
    (l.effect other).answer operation = l.answer operation :=
  answer_congr fun a decides => account_effect_ne (independent.undisturbed a decides)

theorem run_two (l : Ledger) (first second : Operation) :
    run (serve .release) l [first, second] = ⟨(l.effect first).effect second,
      [(first, l.answer first), (second, (l.effect first).answer second)], false⟩ := by
  simp only [run_release_cons, run_nil, Reaction.stay]

/-- Either order of two calls gives the same two results and leaves the
same accounts. -/
def Commute (l : Ledger) (first second : Operation) : Prop :=
  ∃ l' r r', run (serve .release) l [first, second] = ⟨l', [(first, r), (second, r')], false⟩ ∧
    run (serve .release) l [second, first] = ⟨l', [(second, r'), (first, r)], false⟩

/-- A result that is no error. -/
def Succeeded : Returned → Prop
  | .transferred result => result = .ok ()
  | .registered _ | .credited => True

/-- Where both calls succeed in both orders, both leave the same accounts. -/
def Confluent (l : Ledger) (first second : Operation) : Prop :=
  ∀ l₁ l₂ r₁ r₂ r₁' r₂', run (serve .release) l [first, second] = ⟨l₁, [(first, r₁), (second, r₁')], false⟩ →
    run (serve .release) l [second, first] = ⟨l₂, [(second, r₂'), (first, r₂)], false⟩ →
    Succeeded r₁ → Succeeded r₁' → Succeeded r₂ → Succeeded r₂' → l₁ = l₂

theorem commute_of_independent (l : Ledger) {first second : Operation} (independent : Independent first second) :
    Commute l first second := by
  refine ⟨(l.effect first).effect second, l.answer first, l.answer second, ?_, ?_⟩
  · rw [run_two, independent.symm.answer]
  · rw [run_two, independent.answer, effect_comm l independent]

section Transfers
variable {l : Ledger} {a b c d : Address} {x n y m : UInt64}

theorem independent_transfers (senders : a ≠ c) (received : b ≠ c) (paid : d ≠ a) :
    Independent (.transfer a b x n) (.transfer c d y m) where
  undisturbed address decides := by
    obtain rfl : a = address := Option.some.inj decides
    simp only [touched, List.mem_cons, List.not_mem_nil, or_false, not_or]
    exact ⟨senders, paid.symm⟩
  undisturbing address decides := by
    obtain rfl : c = address := Option.some.inj decides
    simp only [touched, List.mem_cons, List.not_mem_nil, or_false, not_or]
    exact ⟨senders.symm, received.symm⟩

theorem independent_transfer_credit (paid : d ≠ a) : Independent (.transfer a b x n) (.credit d y) where
  undisturbed address decides := by
    obtain rfl : a = address := Option.some.inj decides
    exact fun credited => paid (List.mem_singleton.mp credited).symm
  undisturbing _ decides := by cases decides

/-- Only the effects of calls that succeed have to pass each other. -/
theorem confluent_of_effects {l : Ledger} {first second : Operation}
    (same : Succeeded (l.answer first) → Succeeded ((l.effect first).answer second) →
      Succeeded (l.answer second) → Succeeded ((l.effect second).answer first) →
      (l.effect first).effect second = (l.effect second).effect first) : Confluent l first second := by
  intro l₁ l₂ r₁ r₂ r₁' r₂' run₁ run₂ s₁ s₁' s₂ s₂'
  simp only [run_two, Reaction.mk.injEq, List.cons.injEq, Prod.mk.injEq, true_and, and_true] at run₁ run₂
  obtain ⟨rfl, rfl, rfl⟩ := run₁
  obtain ⟨rfl, rfl, rfl⟩ := run₂
  exact same s₁ s₁' s₂' s₂

theorem succeeded_transfer : Succeeded (l.answer (.transfer a b x n)) ↔ l.Accepts a b x n := verdict_ok_iff ..

theorem effect_of_accepts (accepts : l.Accepts a b x n) :
    l.effect (.transfer a b x n) = (l.debited a x).plus b x := by rw [effect, if_pos accepts]

theorem nextNonce_effect (accepts : l.Accepts a b x n) :
    (l.effect (.transfer a b x n)).nextNonce a = l.nextNonce a + 1 := by
  rw [effect_of_accepts accepts, nextNonce_plus, accepts.1.nextNonce_debited]

/-- One sender's two transfers succeed in one order at most: the second
needs the nonce after the first one's. -/
theorem accepts_once (first : l.Accepts a b x n) (second : l.Accepts a d y m) :
    ¬ (l.effect (.transfer a b x n)).Accepts a d y m := by
  intro later
  have now := second.2
  have afterwards := later.2
  rw [nextNonce_effect first] at afterwards
  grind

theorem transfers_confluent : Confluent l (.transfer a b x n) (.transfer c d y m) := by
  apply confluent_of_effects
  intro first secondLater second firstLater
  rw [succeeded_transfer] at first secondLater second firstLater
  have different : a ≠ c := by
    rintro rfl
    exact accepts_once first second secondLater
  rw [effect_of_accepts secondLater, effect_of_accepts firstLater, effect_of_accepts first, effect_of_accepts second]
  exact moved_comm different first second

theorem transfer_credit_confluent : Confluent l (.transfer a b x n) (.credit d y) := by
  apply confluent_of_effects
  intro first _ _ firstLater
  rw [succeeded_transfer] at first firstLater
  rw [effect_of_accepts firstLater, effect_of_accepts first]
  simp only [effect]
  rw [debited_plus first, plus_comm]

end Transfers

/-- Two transfers commute when neither sender takes part in the other one,
and where both succeed in both orders they agree whoever takes part. The
same goes for a transfer and a credit. -/
theorem calls_commute (l : Ledger) (a b c d : Address) (x n y m : UInt64) :
    (a ≠ c → b ≠ c → d ≠ a → Commute l (.transfer a b x n) (.transfer c d y m)) ∧
      Confluent l (.transfer a b x n) (.transfer c d y m) ∧
      (d ≠ a → Commute l (.transfer a b x n) (.credit d y)) ∧
      Confluent l (.transfer a b x n) (.credit d y) := by
  refine ⟨?_, transfers_confluent, ?_, transfer_credit_confluent⟩
  · exact fun senders received paid => commute_of_independent l (independent_transfers senders received paid)
  · exact fun paid => commute_of_independent l (independent_transfer_credit paid)

/-- Two wallets that pay a third one, which is unknown before. -/
def twoPayers : Ledger := (new.set (sampleWallet 2).address ⟨10, 0⟩).set (sampleWallet 3).address ⟨20, 0⟩

theorem calls_commute_twoPayers :
    Commute twoPayers (.transfer (sampleWallet 2).address (sampleWallet 1).address 4 0)
        (.transfer (sampleWallet 3).address (sampleWallet 1).address 5 0) ∧
      Commute twoPayers (.transfer (sampleWallet 2).address (sampleWallet 1).address 4 0)
        (.credit (sampleWallet 1).address 5) :=
  have commute := calls_commute twoPayers (sampleWallet 2).address (sampleWallet 1).address
    (sampleWallet 3).address (sampleWallet 1).address 4 0 5 0
  ⟨commute.1 (by decide +kernel) (by decide +kernel) (by decide +kernel), commute.2.2.1 (by decide +kernel)⟩

/-- A batch of calls, any two of them independent, gives the same results
and the same accounts in every order. -/
theorem batch_perm {batch batch' : List Operation} (perm : batch.Perm batch')
    (independent : batch.Pairwise Independent) (l : Ledger) :
    (run (serve .release) l batch').state = (run (serve .release) l batch).state ∧
      (run (serve .release) l batch').output.Perm (run (serve .release) l batch).output := by
  induction perm generalizing l with
  | nil => exact ⟨rfl, .nil⟩
  | cons operation _ ih =>
    obtain ⟨state, output⟩ := ih (List.pairwise_cons.mp independent).2 (l.effect operation)
    simp only [run_release_cons]
    exact ⟨state, output.cons _⟩
  | swap first second rest =>
    have apart := (List.pairwise_cons.mp independent).1 first List.mem_cons_self
    simp only [run_release_cons, effect_comm l apart, apart.answer, apart.symm.answer]
    exact ⟨trivial, .swap ..⟩
  | trans left _ ih ih' =>
    obtain ⟨state, output⟩ := ih independent l
    obtain ⟨state', output'⟩ := ih' (independent.perm left Independent.symm) l
    exact ⟨state'.trans state, output'.trans output⟩

/-- Two payments to wallet 1 and a credit to it. -/
def sampleBatch : List Operation :=
  [.transfer (sampleWallet 2).address (sampleWallet 1).address 4 0,
    .transfer (sampleWallet 3).address (sampleWallet 1).address 5 0, .credit (sampleWallet 1).address 6]

theorem batch_perm_sampleBatch :
    (run (serve .release) twoPayers sampleBatch.reverse).state = (run (serve .release) twoPayers sampleBatch).state ∧
      (run (serve .release) twoPayers sampleBatch.reverse).output.Perm
        (run (serve .release) twoPayers sampleBatch).output := by
  refine batch_perm (List.reverse_perm sampleBatch).symm ?_ twoPayers
  have first := independent_transfers (a := (sampleWallet 2).address) (b := (sampleWallet 1).address)
    (c := (sampleWallet 3).address) (d := (sampleWallet 1).address) (x := 4) (n := 0) (y := 5) (m := 0)
    (by decide +kernel) (by decide +kernel) (by decide +kernel)
  have second := independent_transfer_credit (a := (sampleWallet 2).address) (b := (sampleWallet 1).address)
    (d := (sampleWallet 1).address) (x := 4) (n := 0) (y := 6) (by decide +kernel)
  have third := independent_transfer_credit (a := (sampleWallet 3).address) (b := (sampleWallet 1).address)
    (d := (sampleWallet 1).address) (x := 5) (n := 0) (y := 6) (by decide +kernel)
  simpa [sampleBatch] using ⟨⟨first, second⟩, third⟩

end Ledger
end SecureExchange
