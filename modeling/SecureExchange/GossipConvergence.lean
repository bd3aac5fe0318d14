import Mathlib.Algebra.BigOperators.Group.Finset.Basic
import SecureExchange.AtMostOnce
import SecureExchange.BuildProfiles
import SecureExchange.Library.Gathering

namespace SecureExchange
open Reactive

/-- The verified transaction in a gossip payload, if there is one. -/
def heard (C : Primitives) (data : List UInt8) : Option SignedTransaction :=
  match SignedTransaction.fromRlpBytes data with
  | .error _ => none
  | .ok tx => if tx.Verified C then some tx else none

theorem CollisionFree.tail {C : Primitives} {tx : SignedTransaction} {rest : List SignedTransaction}
    (free : CollisionFree C (tx :: rest)) : CollisionFree C rest :=
  fun a left b right => free a (List.mem_cons_of_mem _ left) b (List.mem_cons_of_mem _ right)

namespace Node
variable {C : Primitives} {Peer : Type}

/-- What a verified transaction heard on gossip does to a node. -/
def absorb (n : Node C Peer) (tx : SignedTransaction) : Node C Peer :=
  if tx.hash C ∈ n.txCache then n
  else { n with
    ledger := if tx.toAddr = n.wallet.address then n.ledger.plus n.wallet.address tx.amount else n.ledger
    txCache := insert (tx.hash C) n.txCache }

/-- The transactions among some that pay this node and are new to it. -/
def claimable (n : Node C Peer) (txs : List SignedTransaction) : Finset SignedTransaction :=
  txs.toFinset.filter fun tx => tx.hash C ∉ n.txCache ∧ tx.toAddr = n.wallet.address

/-- What those transactions pay together, each of them once. -/
def dues (n : Node C Peer) (txs : List SignedTransaction) : Nat := ∑ tx ∈ n.claimable txs, tx.amount.toNat

/-- What a single transaction pays the node now. -/
def gain (n : Node C Peer) (tx : SignedTransaction) : Nat :=
  if tx.hash C ∉ n.txCache ∧ tx.toAddr = n.wallet.address then tx.amount.toNat else 0

section Absorbing
variable {n : Node C Peer} {tx : SignedTransaction} {txs rest : List SignedTransaction}

theorem wallet_absorb : (n.absorb tx).wallet = n.wallet := by
  unfold absorb
  split <;> rfl

theorem cache_absorb : (n.absorb tx).txCache = insert (tx.hash C) n.txCache := by
  unfold absorb
  split
  · rename_i seen
    exact (Finset.insert_eq_of_mem seen).symm
  · rfl

theorem absorb_again : (n.absorb tx).absorb tx = n.absorb tx := by
  have seen : tx.hash C ∈ (n.absorb tx).txCache := by
    rw [cache_absorb]
    exact Finset.mem_insert_self _ _
  rw [absorb.eq_def (n.absorb tx), if_pos seen]

/-- Transactions with different hashes are heard independently. -/
theorem absorb_comm {other : SignedTransaction} (different : tx.hash C ≠ other.hash C) :
    (n.absorb tx).absorb other = (n.absorb other).absorb tx := by
  have left : other.hash C ∈ (n.absorb tx).txCache ↔ other.hash C ∈ n.txCache := by
    rw [cache_absorb, Finset.mem_insert, or_iff_right different.symm]
  have right : tx.hash C ∈ (n.absorb other).txCache ↔ tx.hash C ∈ n.txCache := by
    rw [cache_absorb, Finset.mem_insert, or_iff_right different]
  by_cases seen : tx.hash C ∈ n.txCache
  · have first : n.absorb tx = n := if_pos seen
    rw [first, absorb.eq_def (n.absorb other), if_pos (right.mpr seen)]
  by_cases seenOther : other.hash C ∈ n.txCache
  · have second : n.absorb other = n := if_pos seenOther
    rw [second, absorb.eq_def (n.absorb tx), if_pos (left.mpr seenOther)]
  rw [absorb.eq_def (n.absorb tx), if_neg fun found => seenOther (left.mp found),
    absorb.eq_def (n.absorb other), if_neg fun found => seen (right.mp found)]
  simp only [absorb, if_neg seen, if_neg seenOther, Finset.insert_comm (tx.hash C), Node.mk.injEq, true_and,
    and_true]
  split <;> split <;> simp only [Ledger.plus_comm]

theorem gathers_absorb (free : CollisionFree C txs) : Gathers (absorb : Node C Peer → _) {tx | tx ∈ txs} where
  comm n a left b right := by
    by_cases same : a.hash C = b.hash C
    · rw [free.eq_of_hash left right same]
    · exact absorb_comm same
  again n a _ := absorb_again

theorem ownFunds_absorb : (n.absorb tx).ownFunds = (n.ownFunds + n.gain tx) % 2 ^ 64 := by
  have small : n.ownFunds % 2 ^ 64 = n.ownFunds := Nat.mod_eq_of_lt (n.ledger.funds_lt _)
  unfold absorb gain
  by_cases seen : tx.hash C ∈ n.txCache
  · rw [if_pos seen, if_neg fun both => both.1 seen, Nat.add_zero, small]
  · by_cases own : tx.toAddr = n.wallet.address
    · rw [if_neg seen, if_pos own, if_pos ⟨seen, own⟩]
      exact n.ledger.funds_plus_self ..
    · rw [if_neg seen, if_neg own, if_neg fun both => own both.2, Nat.add_zero, small]
      rfl

/-- Once a transaction is taken, the rest pay what they did without it. -/
theorem claimable_absorb (free : CollisionFree C (tx :: rest)) :
    (n.absorb tx).claimable rest = (n.claimable rest).erase tx := by
  ext other
  simp only [claimable, Finset.mem_filter, Finset.mem_erase, List.mem_toFinset, wallet_absorb, cache_absorb,
    Finset.mem_insert, not_or]
  constructor
  · rintro ⟨among, ⟨different, new⟩, own⟩
    exact ⟨fun same => different (by rw [same]), among, new, own⟩
  · rintro ⟨different, among, new, own⟩
    refine ⟨among, ⟨fun same => different ?_, new⟩, own⟩
    exact free.eq_of_hash (List.mem_cons_of_mem _ among) List.mem_cons_self same

theorem dues_cons (free : CollisionFree C (tx :: rest)) :
    n.dues (tx :: rest) = n.gain tx + (n.absorb tx).dues rest := by
  by_cases fresh : tx.hash C ∉ n.txCache
  · by_cases own : tx.toAddr = n.wallet.address
    · have both : tx.hash C ∉ n.txCache ∧ tx.toAddr = n.wallet.address := ⟨fresh, own⟩
      have new : n.claimable (tx :: rest) = insert tx (n.claimable rest) := by
        rw [claimable, List.toFinset_cons, Finset.filter_insert, if_pos both]
        rfl
      rw [dues, new, ← Finset.add_sum_erase _ _ (Finset.mem_insert_self tx _), Finset.erase_insert_eq_erase, gain,
        if_pos both, dues, claimable_absorb free]
    · have neither : ¬ (tx.hash C ∉ n.txCache ∧ tx.toAddr = n.wallet.address) := fun both => own both.2
      have stays : n.claimable (tx :: rest) = (n.claimable rest).erase tx := by
        rw [Finset.erase_eq_of_notMem, claimable, List.toFinset_cons, Finset.filter_insert, if_neg neither]
        · rfl
        · exact fun member => neither (Finset.mem_filter.mp member).2
      rw [dues, stays, gain, if_neg neither, Nat.zero_add, dues, claimable_absorb free]
  · have neither : ¬ (tx.hash C ∉ n.txCache ∧ tx.toAddr = n.wallet.address) := fun both => fresh both.1
    have same : n.absorb tx = n := if_pos (not_not.mp fresh)
    rw [gain, if_neg neither, Nat.zero_add, same, dues, claimable, List.toFinset_cons, Finset.filter_insert,
      if_neg neither]
    rfl

/-- Taking transactions one by one adds up to what is due. -/
theorem ownFunds_foldl (free : CollisionFree C txs) :
    (txs.foldl absorb n).ownFunds = (n.ownFunds + n.dues txs) % 2 ^ 64 := by
  induction txs generalizing n with
  | nil => exact (Nat.mod_eq_of_lt (n.ledger.funds_lt _)).symm
  | cons tx rest ih =>
    rw [List.foldl_cons, ih free.tail, ownFunds_absorb, dues_cons free, Nat.mod_add_mod, Nat.add_assoc]

end Absorbing

section Hearing
variable {p : Profile} {n : Node C Peer} {data : List UInt8} {tx : SignedTransaction} {xs ys : List (List UInt8)}

theorem admitted_of_heard (hears : heard C data = some tx) :
    n.admitted (.gossip data : Event Peer) =
      if tx.hash C ∉ n.txCache ∧ tx.toAddr = n.wallet.address then some tx else none := by
  unfold heard at hears
  split at hears
  · cases hears
  · rename_i found decoded
    split at hears
    · rename_i verified
      cases hears
      simp only [admitted, decoded, verified, true_and]
    · cases hears

variable [DecidableEq Peer]

/-- A payload that is no verified transaction leaves the node as it is. -/
theorem handle_of_unheard (unheard : heard C data = none) : n.handle p (.gossip data) = .stay n := by
  unfold heard at unheard
  simp only [handle, handleGossip]
  cases decoded : SignedTransaction.fromRlpBytes data with
  | error e => rfl
  | ok found =>
    simp only [decoded] at unheard
    simp only
    split
    · rfl
    cases verified : found.verify C with
    | error e => rfl
    | ok =>
      rw [if_pos (show found.Verified C from verified)] at unheard
      cases unheard

theorem state_of_heard (hears : heard C data = some tx) (live : (n.handle p (.gossip data)).halted = false) :
    (n.handle p (.gossip data)).state = n.absorb tx := by
  have admits := admitted_of_heard (n := n) hears
  by_cases both : tx.hash C ∉ n.txCache ∧ tx.toAddr = n.wallet.address
  · rw [if_pos both] at admits
    rcases handle_of_admitted p admits with ⟨_, _, reaction⟩ | ⟨_, report, _, reaction⟩
    · rw [reaction] at live
      cases live
    · rw [reaction, absorb, if_neg both.1, if_pos both.2]
      rfl
  rw [if_neg both] at admits
  unfold heard at hears
  split at hears
  · cases hears
  rename_i found decoded
  split at hears
  · rename_i verified
    cases hears
    simp only [handle, handleGossip, decoded, absorb]
    split
    · rfl
    · rename_i fresh
      have other : tx.toAddr ≠ n.wallet.address := fun own => both ⟨fresh, own⟩
      rw [SignedTransaction.Verified] at verified
      simp only [verified, if_neg other]
  · cases hears

/-- A checked build takes a payload just when the sum it leads to fits. -/
theorem live_of_heard_iff (hears : heard C data = some tx) :
    (n.handle .dev (.gossip data)).halted = false ↔ n.ownFunds + n.gain tx < 2 ^ 64 := by
  have small : n.ownFunds < 2 ^ 64 := n.ledger.funds_lt _
  have admits := admitted_of_heard (n := n) hears
  have fits : (n.handle .dev (.gossip data)).halted = false ↔ n.AdditionsFit (.gossip data) := by
    refine ⟨fun live => by_contra fun unfit => ?_, fun fits => fits.live⟩
    rw [checks_handle.stops n _ unfit] at live
    cases live
  rw [fits, AdditionsFit, admits, gain]
  by_cases both : tx.hash C ∉ n.txCache ∧ tx.toAddr = n.wallet.address
  · simp [both, paymentOf, CreditFits]
  · rw [if_neg both, if_neg both]
    simpa [paymentOf] using small

/-- While it is up, a node that hears payloads takes the verified
transactions among them one by one. -/
theorem gossip_state (live : (run (handle p) n (xs.map .gossip)).halted = false) :
    (run (handle p) n (xs.map .gossip)).state = (xs.filterMap (heard C)).foldl absorb n := by
  induction xs generalizing n with
  | nil => rfl
  | cons data rest ih =>
    rw [List.map_cons] at live ⊢
    cases first : (n.handle p (.gossip data)).halted with
    | true => rw [run_cons_halted first, first] at live; cases live
    | false =>
      rw [run_cons_live first] at live ⊢
      cases hears : heard C data with
      | none =>
        rw [handle_of_unheard hears] at live ⊢
        rw [List.filterMap_cons_none hears]
        exact ih live
      | some tx =>
        rw [state_of_heard hears first] at live ⊢
        rw [List.filterMap_cons_some hears, List.foldl_cons]
        exact ih live

/-- A checked build hears payloads out just when all that they pay the
node, each new transaction taken once, fits into its balance. -/
theorem gossip_live_iff (free : CollisionFree C (xs.filterMap (heard C))) :
    (run (handle p) n (xs.map .gossip)).halted = false ↔
      (p = .dev → n.ownFunds + n.dues (xs.filterMap (heard C)) < 2 ^ 64) := by
  cases p with
  | release => simp [run_live checks_handle.live]
  | dev =>
    simp only [forall_const]
    induction xs generalizing n with
    | nil =>
      have small : n.ownFunds < 2 ^ 64 := n.ledger.funds_lt _
      simpa [dues, claimable, Reaction.stay] using small
    | cons data rest ih =>
      rw [List.map_cons]
      cases hears : heard C data with
      | none =>
        rw [List.filterMap_cons_none hears] at free ⊢
        rw [run_cons_live (by rw [handle_of_unheard hears]; rfl), handle_of_unheard hears]
        exact ih free
      | some tx =>
        rw [List.filterMap_cons_some hears] at free ⊢
        have step := live_of_heard_iff (n := n) hears
        rw [dues_cons free]
        cases first : (n.handle .dev (.gossip data)).halted with
        | true =>
          rw [run_cons_halted first, first]
          rw [first] at step
          have unfit := mt step.mpr (by simp)
          simp only [Bool.true_eq_false, false_iff]
          omega
        | false =>
          have fits := step.mp first
          have funds : (n.absorb tx).ownFunds = (n.ownFunds + n.gain tx) % 2 ^ 64 := ownFunds_absorb
          rw [Nat.mod_eq_of_lt fits] at funds
          have later := ih (n := n.absorb tx) free.tail
          rw [run_cons_live first, state_of_heard hears first, later, funds, Nat.add_assoc]

/-- What a node makes of the gossip it hears depends on which payloads
those are, not on their order nor on how often each of them comes: it ends
up in the same state, with every new payment to it added once, or a checked
build panics either way. -/
theorem gossip_converges (p : Profile) (n : Node C Peer) (same : ∀ data, data ∈ xs ↔ data ∈ ys)
    (free : CollisionFree C (xs.filterMap (heard C))) :
    (run (handle p) n (xs.map .gossip)).halted = (run (handle p) n (ys.map .gossip)).halted ∧
      ((run (handle p) n (xs.map .gossip)).halted = false →
        (run (handle p) n (xs.map .gossip)).state = (run (handle p) n (ys.map .gossip)).state ∧
          (run (handle p) n (xs.map .gossip)).state.ownFunds =
            (n.ownFunds + n.dues (xs.filterMap (heard C))) % 2 ^ 64) := by
  have heardSame : ∀ tx, tx ∈ xs.filterMap (heard C) ↔ tx ∈ ys.filterMap (heard C) := by
    intro tx
    simp only [List.mem_filterMap, same]
  have freeToo : CollisionFree C (ys.filterMap (heard C)) :=
    fun a left b right => free a ((heardSame a).mpr left) b ((heardSame b).mpr right)
  have due : n.dues (xs.filterMap (heard C)) = n.dues (ys.filterMap (heard C)) := by
    have sets : n.claimable (xs.filterMap (heard C)) = n.claimable (ys.filterMap (heard C)) := by
      ext tx
      simp only [claimable, Finset.mem_filter, List.mem_toFinset, heardSame]
    rw [dues, dues, sets]
  have both : (run (handle p) n (xs.map .gossip)).halted = false ↔
      (run (handle p) n (ys.map .gossip)).halted = false := by
    rw [gossip_live_iff free, gossip_live_iff freeToo, due]
  refine ⟨Bool.eq_iff_iff.mpr (by simpa using not_congr both), fun live => ⟨?_, ?_⟩⟩
  · rw [gossip_state live, gossip_state (both.mp live)]
    exact (gathers_absorb free).foldl_eq (fun _ member => member) heardSame n
  · rw [gossip_state live, ownFunds_foldl free]

/-- A payment of 30 and one of 12 to wallet 1, and some junk. -/
def rumours : List (List UInt8) :=
  [(samplePayment 30 0).toRlpBytes, [0xc0], (samplePayment 12 1).toRlpBytes]

/-- The same payloads, with another order and one of them twice. -/
def rumoursAgain : List (List UInt8) :=
  [(samplePayment 12 1).toRlpBytes, (samplePayment 30 0).toRlpBytes, (samplePayment 12 1).toRlpBytes, [0xc0]]

theorem mem_rumours (data : List UInt8) : data ∈ rumours ↔ data ∈ rumoursAgain := by
  unfold rumours rumoursAgain
  generalize (samplePayment 30 0).toRlpBytes = first
  generalize (samplePayment 12 1).toRlpBytes = second
  simp only [List.mem_cons, List.not_mem_nil, or_false]
  grind

theorem gossip_converges_rumours :
    (run (handle .dev) (start (sampleWallet 1) 5 : Node samplePrimitives Nat) (rumours.map .gossip)).halted =
        (run (handle .dev) (start (sampleWallet 1) 5 : Node samplePrimitives Nat)
          (rumoursAgain.map .gossip)).halted ∧
      ((run (handle .dev) (start (sampleWallet 1) 5 : Node samplePrimitives Nat) (rumours.map .gossip)).halted =
          false →
        (run (handle .dev) (start (sampleWallet 1) 5 : Node samplePrimitives Nat) (rumours.map .gossip)).state =
            (run (handle .dev) (start (sampleWallet 1) 5 : Node samplePrimitives Nat)
              (rumoursAgain.map .gossip)).state ∧
          (run (handle .dev) (start (sampleWallet 1) 5 : Node samplePrimitives Nat)
              (rumours.map .gossip)).state.ownFunds =
            ((start (sampleWallet 1) 5 : Node samplePrimitives Nat).ownFunds +
              (start (sampleWallet 1) 5 : Node samplePrimitives Nat).dues
                (rumours.filterMap (heard samplePrimitives))) % 2 ^ 64) :=
  gossip_converges .dev _ mem_rumours (by decide +kernel)

end Hearing
end Node
end SecureExchange
