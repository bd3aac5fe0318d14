import SecureExchange.CreditHistory
import SecureExchange.Sample

namespace SecureExchange
open Reactive

/-- Among some transactions, no two distinct verified ones share their
sender and their nonce. -/
def NonceOnce (C : Primitives) (txs : List SignedTransaction) : Prop :=
  ∀ (sender : Address) (nonce : UInt64), ∀ a ∈ txs, ∀ b ∈ txs, a.Verified C → b.Verified C →
    a.fromAddr = sender → b.fromAddr = sender → a.nonce = nonce → b.nonce = nonce → a = b

namespace Node
variable {C : Primitives} {Peer : Type}

/-- A verified transaction for this wallet is only ever held back by the
cache, and only on the gossip channel. -/
theorem admitted_or_cached {n : Node C Peer} {ev : Event Peer} {tx : SignedTransaction}
    (handles : n.handled ev = some tx) (verified : tx.Verified C) (here : tx.toAddr = n.wallet.address) :
    n.admitted ev = some tx ∨ tx.hash C ∈ n.txCache := by
  cases ev with
  | stdin line now publishOk =>
    have covers := (payment_spec handles).2.2.2
    exact absurd here.symm covers.1
  | gossip data =>
    cases decoded : SignedTransaction.fromRlpBytes data with
    | error e => simp only [handled, decoded, Except.toOption] at handles; cases handles
    | ok found =>
      simp only [handled, decoded, Except.toOption, Option.some.injEq] at handles
      subst handles
      by_cases seen : found.hash C ∈ n.txCache
      · exact Or.inr seen
      · left
        simp only [admitted, decoded]
        exact if_pos ⟨seen, verified, here⟩
  | transferRequest peer request =>
    cases decoded : SignedTransaction.fromRlpBytes request.txRlp with
    | error e => simp only [handled, decoded, Except.toOption] at handles; cases handles
    | ok found =>
      simp only [handled, decoded, Except.toOption, Option.some.injEq] at handles
      subst handles
      left
      simp only [admitted, decoded]
      exact if_pos ⟨verified, here⟩
  | transferResponse | connectionEstablished | connectionClosed => cases handles

variable [DecidableEq Peer]

/-- The ledger after an event that credits is the one `Ledger::credit` leaves. -/
theorem ledger_of_admitted {p : Profile} {n : Node C Peer} {ev : Event Peer} {tx : SignedTransaction}
    (admits : n.admitted ev = some tx) :
    (n.handle p ev).state.ledger = (n.ledger.credit p n.wallet.address tx.amount).state := by
  obtain ⟨_, _, here⟩ := admitted_spec admits
  have result := n.credit_eq p tx here
  rw [here] at result
  rcases handle_of_admitted p admits with ⟨dev, full, reaction⟩ | ⟨fits, report, _, reaction⟩
  · rcases result with ⟨_, _, panicked⟩ | ⟨fits, _⟩
    · rw [reaction, panicked]
      rfl
    · exact absurd (fits dev) full
  · rcases result with ⟨dev, full, _⟩ | ⟨_, returned⟩
    · exact absurd (fits dev) full
    · rw [reaction, returned]
      rfl

section Runs
variable {p : Profile} {wallet : Wallet C} {balance : UInt64} {events : List (Event Peer)}
  {tx : SignedTransaction}

/-- A run credits exactly the verified transactions for its wallet that
its events brought in. -/
theorem mem_credits_iff (free : CollisionFree C (handledIn (steps (handle p) (start wallet balance) events))) :
    tx ∈ creditsIn (run (handle p) (start wallet balance) events).output ↔
      tx ∈ handledIn (steps (handle p) (start wallet balance) events) ∧ tx.Verified C ∧
        tx.toAddr = wallet.address := by
  constructor
  · intro credited
    obtain ⟨st, member, admits⟩ := mem_creditsIn_run.mp credited
    obtain ⟨_, _, _, _, _, sameWallet, _⟩ := step_history member
    obtain ⟨handles, verified, here⟩ := admitted_spec admits
    rw [sameWallet] at here
    exact ⟨mem_handledIn.mpr ⟨st, member, handles⟩, verified, here⟩
  · rintro ⟨among, verified, here⟩
    obtain ⟨st, member, handles⟩ := mem_handledIn.mp among
    obtain ⟨before, after, split, live, found, sameWallet, _⟩ := step_history member
    have own : tx.toAddr = st.before.wallet.address := by rw [sameWallet]; exact here
    rcases admitted_or_cached handles verified own with admits | cached
    · exact mem_creditsIn_run.mpr ⟨st, member, admits⟩
    · have holds := cacheMatches_step_of_run (fun _ inside => inside) split live
      rw [← found] at holds
      have earlier := holds.credited_of_cached free among own cached
      rw [split, run_append live, creditsIn_append]
      exact List.mem_append_left _ earlier

/-- Two credits with one sender and one nonce happen exactly when two
verified transactions of that kind for the wallet arrive: nothing on the
receiving side looks at the nonce. -/
theorem credits_nonceOnce_iff
    (free : CollisionFree C (handledIn (steps (handle p) (start wallet balance) events))) :
    NonceOnce C (creditsIn (run (handle p) (start wallet balance) events).output) ↔
      NonceOnce C ((handledIn (steps (handle p) (start wallet balance) events)).filter
        fun tx => tx.toAddr = wallet.address) := by
  constructor
  · intro once sender nonce a arrivesA b arrivesB verifiedA verifiedB
    obtain ⟨handledA, hereA⟩ := List.mem_filter.mp arrivesA
    obtain ⟨handledB, hereB⟩ := List.mem_filter.mp arrivesB
    have creditedA := (mem_credits_iff free).mpr ⟨handledA, verifiedA, of_decide_eq_true hereA⟩
    have creditedB := (mem_credits_iff free).mpr ⟨handledB, verifiedB, of_decide_eq_true hereB⟩
    exact once sender nonce a creditedA b creditedB verifiedA verifiedB
  · intro once sender nonce a creditedA b creditedB verifiedA verifiedB
    obtain ⟨handledA, _, hereA⟩ := (mem_credits_iff free).mp creditedA
    obtain ⟨handledB, _, hereB⟩ := (mem_credits_iff free).mp creditedB
    exact once sender nonce a (List.mem_filter.mpr ⟨handledA, decide_eq_true hereA⟩)
      b (List.mem_filter.mpr ⟨handledB, decide_eq_true hereB⟩) verifiedA verifiedB

/-- Two signed payments with nonce zero, both delivered. -/
def doubleSpend : List (Event Nat) :=
  [.gossip (samplePayment 30 0).toRlpBytes, .gossip (samplePayment 40 1).toRlpBytes]

theorem credits_nonceOnce_iff_doubleSpend :
    NonceOnce samplePrimitives (creditsIn (run (handle .dev) (start (sampleWallet 1) 100) doubleSpend).output) ↔
      NonceOnce samplePrimitives ((handledIn (steps (handle .dev) (start (sampleWallet 1) 100) doubleSpend)).filter
        fun tx => tx.toAddr = (sampleWallet 1).address) :=
  credits_nonceOnce_iff (by decide +kernel)

/-- Both payments of one nonce are credited. -/
theorem doubleSpend_credited :
    ¬ NonceOnce samplePrimitives
      (creditsIn (run (handle .dev) (start (sampleWallet 1) 100) doubleSpend).output) := by
  intro once
  have same := once (sampleWallet 2).address 0 (samplePayment 30 0) (by decide +kernel)
    (samplePayment 40 1) (by decide +kernel) (by decide +kernel) (by decide +kernel) rfl rfl rfl rfl
  revert same
  decide +kernel

/-- A payment that the sender's ledger took reaches its wallet with any
first copy, whatever the receiving node has been through. -/
theorem honest_payment_credited {q : Profile} {sender : Node C Peer} {line : String} {now : UInt64}
    {publishOk : Bool} (sent : tx ∈ transfersIn (sender.handle q (.stdin line now publishOk)).output)
    (here : tx.toAddr = wallet.address)
    (live : (run (handle p) (start wallet balance) events).halted = false)
    (free : CollisionFree C (tx :: handledIn (steps (handle p) (start wallet balance) events)))
    (fresh : tx ∉ creditsIn (run (handle p) (start wallet balance) events).output) {ev : Event Peer}
    (copy : ev = .gossip tx.toRlpBytes ∨ ∃ peer, ev = .transferRequest peer ⟨tx.toRlpBytes⟩) :
    let n := (run (handle p) (start wallet balance) events).state
    SignedTransaction.fromRlpBytes tx.toRlpBytes = .ok tx ∧ tx.verify C = .ok () ∧
      tx.hash C ∉ n.txCache ∧ creditsIn (n.handle p ev).output = [tx] ∧
      (n.handle p ev).state.ledger = (n.ledger.credit p wallet.address tx.amount).state := by
  intro n
  have sameWallet : n.wallet = wallet := wallet_run p (start wallet balance) events
  have own : tx.toAddr = n.wallet.address := by rw [sameWallet]; exact here
  have verified : tx.Verified C := verified_of_transferred sent
  have decoded := tx.fromRlpBytes_encoded
  have holds : CacheMatches (tx :: handledIn (steps (handle p) (start wallet balance) events)) n
      (run (handle p) (start wallet balance) events).output :=
    cacheMatches_run (fun _ member => List.mem_cons_of_mem _ member) live
  have uncached : tx.hash C ∉ n.txCache := fun cached =>
    fresh (holds.credited_of_cached free (List.mem_cons_self ..) own cached)
  have handles : n.handled ev = some tx := by
    rcases copy with rfl | ⟨peer, rfl⟩
    · simp only [handled, decoded, Except.toOption]
    · simp only [handled, decoded, Except.toOption]
  have admits : n.admitted ev = some tx := (admitted_or_cached handles verified own).resolve_right uncached
  have credits := n.creditsIn_handle p ev
  have ledger := ledger_of_admitted (p := p) admits
  rw [admits] at credits
  rw [sameWallet] at ledger
  exact ⟨decoded, verified, uncached, credits, ledger⟩

theorem honest_payment_credited_after_junk :
    let n := (run (handle .dev) (start (sampleWallet 1) 100)
      [.gossip [1, 2, 3], .gossip (samplePayment 40 1).toRlpBytes]).state
    SignedTransaction.fromRlpBytes (samplePayment 30 0).toRlpBytes = .ok (samplePayment 30 0) ∧
      (samplePayment 30 0).verify samplePrimitives = .ok () ∧
      (samplePayment 30 0).hash samplePrimitives ∉ n.txCache ∧
      creditsIn (n.handle .dev (.transferRequest 7 ⟨(samplePayment 30 0).toRlpBytes⟩)).output =
        [samplePayment 30 0] ∧
      (n.handle .dev (.transferRequest 7 ⟨(samplePayment 30 0).toRlpBytes⟩)).state.ledger =
        (n.ledger.credit .dev (sampleWallet 1).address 30).state := by
  have sent : samplePayment 30 0 ∈ transfersIn ((start (sampleWallet 2) 1000 : Node _ Nat).handle .dev
      (.stdin sampleLine 0 true)).output := by decide +kernel
  exact honest_payment_credited sent rfl (by decide +kernel) (by decide +kernel) (by decide +kernel)
    (Or.inr ⟨7, rfl⟩)

end Runs
end Node
end SecureExchange
