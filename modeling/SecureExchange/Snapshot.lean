import SecureExchange.Linearizability

namespace SecureExchange
open Linearization

/-- The arguments of a transfer. -/
structure TransferCall where
  fromAddr : Address
  toAddr : Address
  amount : UInt64
  nonce : UInt64

def TransferCall.operation (t : TransferCall) : Operation := .transfer t.fromAddr t.toAddr t.amount t.nonce

namespace Ledger

theorem addressHex_injective : Function.Injective fun a : Address => hexString a.bytes :=
  fun _ _ same => FixedBytes.ext (hexString_injective same)

/-- All accounts under their printed addresses, read in one instant. -/
def snapshot (l : Ledger) : Finmap fun _ : String => AccountState where
  entries := l.accounts.entries.map fun entry => ⟨hexString entry.1.bytes, entry.2⟩
  nodupKeys := by
    have distinct := (Multiset.nodup_keys.mpr l.accounts.nodupKeys).map addressHex_injective
    rw [← Multiset.nodup_keys]
    simpa only [Multiset.keys, Multiset.map_map, Function.comp_apply] using distinct

/-- What the balances of a snapshot add up to. -/
def snapshotTotal (l : Ledger) : Nat := l.snapshot.total fun state => state.balance.toNat

theorem snapshotTotal_eq (l : Ledger) : l.snapshotTotal = l.supply := by
  simp only [snapshotTotal, snapshot, supply, Finmap.total, Multiset.map_map, Function.comp_apply]

/-- A transfer whose debit is in the accounts without its credit: it stands
between its two steps, or a panic on the nonce has broken it off. -/
def Torn : Phase Point (Option Returned) → Prop
  | .running .credit | .running (.release none) | .done none => True
  | _ => False

theorem torn_cases {phase : Phase Point (Option Returned)} (torn : Torn phase) :
    phase = .running .credit ∨ phase = .running (.release none) ∨ phase = .done none := by
  cases phase with
  | waiting => exact absurd torn id
  | running point =>
    cases point with
    | debit => exact absurd torn id
    | credit => exact Or.inl rfl
    | release result =>
      cases result with
      | none => exact Or.inr (Or.inl rfl)
      | some value => exact absurd torn id
  | done result =>
    cases result with
    | none => exact Or.inr (Or.inr rfl)
    | some value => exact absurd torn id

theorem torn_of_lost {operation : Operation} {phase : Phase Point (Option Returned)} (some : lostBy operation phase ≠ 0) :
    Torn phase := by
  cases operation with
  | register | credit => exact absurd rfl some
  | transfer fromAddr toAddr amount nonce =>
    unfold lostBy at some
    split at some
    · trivial
    · trivial
    · exact absurd rfl some

section Transfers
variable {ι : Type} [Fintype ι] {p : Profile} {transfers : ι → TransferCall} {l a : Ledger}
  {c : Config ι Shared Point (Option Returned)}

theorem circulated_transfers (c : Config ι Shared Point (Option Returned)) :
    circulated (fun i => (transfers i).operation) c = 0 := by
  refine Finset.sum_eq_zero fun i _ => ?_
  cases c.phase i with
  | waiting | running => rfl
  | done result => rfl

theorem InStep.supply_le (holds : InStep p (fun i => (transfers i).operation) l a c) :
    c.shared.ledger.supply ≤ a.supply := by
  rcases holds.stand with even | ⟨operation, between⟩
  · rw [even]
  · exact between.supply_lt.le

/-- A transfer that a panic has broken off has lost its amount. -/
theorem InStep.lost_pos (holds : InStep p (fun i => (transfers i).operation) l a c) {i : ι}
    (panicked : c.phase i = .running (.release none) ∨ c.phase i = .done none) :
    0 < lost (fun i => (transfers i).operation) c := by
  have proper : Proper (transfers i).operation := by
    rcases panicked with leaving | left
    · exact holds.proper i (by rw [leaving]; trivial)
    · exact holds.broken i left
  have nonzero : 0 < (transfers i).amount.toNat := Nat.pos_of_ne_zero fun zero => proper.2 (UInt64.toNat_inj.mp zero)
  have positive : 0 < lostBy (transfers i).operation (c.phase i) := by
    rcases panicked with leaving | left
    · rwa [leaving]
    · rwa [left]
  exact Nat.lt_of_lt_of_le positive
    (Finset.single_le_sum (f := fun i => lostBy (transfers i).operation (c.phase i))
      (fun _ _ => Nat.zero_le _) (Finset.mem_univ i))

/-- The accounts lack the amounts of the torn transfers, and nothing else. -/
theorem InStep.supply_lt_of_torn (holds : InStep p (fun i => (transfers i).operation) l a c) {i : ι}
    (torn : Torn (c.phase i)) : c.shared.ledger.supply < l.supply := by
  have whole := holds.supply
  rw [circulated_transfers, Nat.add_zero] at whole
  rcases torn_cases torn with midway | panicked
  · have less := (holds.between i midway).supply_lt
    omega
  · have behind := holds.supply_le
    have gone := holds.lost_pos panicked
    omega

theorem InStep.supply_of_untorn (holds : InStep p (fun i => (transfers i).operation) l a c)
    (untorn : ∀ i, ¬ Torn (c.phase i)) : c.shared.ledger.supply = l.supply := by
  have whole := holds.supply
  have even := holds.settled fun i there => untorn i (by rw [there]; trivial)
  have kept : lost (fun i => (transfers i).operation) c = 0 :=
    Finset.sum_eq_zero fun i _ => by_contra fun some => untorn i (torn_of_lost some)
  rw [circulated_transfers, kept] at whole
  rw [← even]
  omega

variable [DecidableEq ι]

/-- A snapshot taken during concurrent transfers adds up to the conserved
total exactly when no transfer is torn at that moment. -/
theorem snapshot_consistent_iff (p : Profile) (transfers : ι → TransferCall) (l : Ledger)
    (room : l.supply < 2 ^ 64) (schedule : List ι) :
    (runs (object p) (fun i => (transfers i).operation) (start ⟨l, false⟩) schedule).shared.ledger.snapshotTotal =
        l.supply ↔
      ∀ i, ¬ Torn ((runs (object p) (fun i => (transfers i).operation) (start ⟨l, false⟩) schedule).phase i) := by
  have guarded : ∀ early later, schedule = early ++ later → l.supply + circulated (fun i => (transfers i).operation)
      (runs (object p) (fun i => (transfers i).operation) (start ⟨l, false⟩) early) < 2 ^ 64 := by
    intro early _ _
    rwa [circulated_transfers, Nat.add_zero]
  have follows := ((simulation p (fun i => (transfers i).operation) l).follow (inStep_start p _ l) guarded).1
  rw [snapshotTotal_eq]
  constructor
  · intro same i torn
    have less := follows.supply_lt_of_torn torn
    omega
  · exact follows.supply_of_untorn

end Transfers

/-- One payment of 4. -/
def onePayment : Unit → TransferCall := fun _ => ⟨(sampleWallet 2).address, (sampleWallet 1).address, 4, 0⟩

theorem snapshot_consistent_iff_onePayment :
    (new.set (sampleWallet 2).address ⟨10, 0⟩).supply < 2 ^ 64 ∧
      ((runs (object .dev) (fun i => (onePayment i).operation) (start ⟨new.set (sampleWallet 2).address ⟨10, 0⟩, false⟩)
          [(), (), (), ()]).shared.ledger.snapshotTotal = (new.set (sampleWallet 2).address ⟨10, 0⟩).supply ↔
        ∀ i, ¬ Torn ((runs (object .dev) (fun i => (onePayment i).operation)
          (start ⟨new.set (sampleWallet 2).address ⟨10, 0⟩, false⟩) [(), (), (), ()]).phase i)) :=
  ⟨by decide +kernel, snapshot_consistent_iff .dev onePayment _ (by decide +kernel) _⟩

/-- A snapshot between the two steps of a payment misses the amount. -/
theorem snapshot_torn :
    (runs (object .dev) (fun i => (onePayment i).operation) (start ⟨new.set (sampleWallet 2).address ⟨10, 0⟩, false⟩)
        [(), ()]).shared.ledger.snapshotTotal ≠ (new.set (sampleWallet 2).address ⟨10, 0⟩).supply := by
  decide +kernel

end Ledger
end SecureExchange
