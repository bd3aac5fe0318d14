import SecureExchange.Snapshot

namespace SecureExchange
open Linearization

namespace Ledger

/-- What a torn transfer has taken from its sender and given to nobody. -/
def missingBy : Operation → Phase Point (Option Returned) → Nat
  | .transfer _ _ amount _, .running .credit => amount.toNat
  | operation, phase => lostBy operation phase

/-- The part of it that is still to be paid out. -/
def midwayBy : Operation → Phase Point (Option Returned) → Nat
  | .transfer _ _ amount _, .running .credit => amount.toNat
  | _, _ => 0

theorem missingBy_eq (operation : Operation) (phase : Phase Point (Option Returned)) :
    missingBy operation phase = midwayBy operation phase + lostBy operation phase := by
  unfold missingBy midwayBy
  split
  · rfl
  · exact (Nat.zero_add _).symm

theorem midwayBy_ne {operation : Operation} {phase : Phase Point (Option Returned)}
    (elsewhere : phase ≠ .running .credit) : midwayBy operation phase = 0 := by
  unfold midwayBy
  split
  · exact absurd rfl elsewhere
  · rfl

section Concurrent
variable {ι : Type} [Fintype ι] {p : Profile} {calls : ι → Operation} {l a : Ledger}
  {c : Config ι Shared Point (Option Returned)}

/-- What all torn transfers of a configuration are short of. -/
def missing (calls : ι → Operation) (c : Config ι Shared Point (Option Returned)) : Nat :=
  weight (fun i => missingBy (calls i)) c

theorem missing_eq (calls : ι → Operation) (c : Config ι Shared Point (Option Returned)) :
    missing calls c = weight (fun i => midwayBy (calls i)) c + lost calls c := by
  simp only [missing, weight, missingBy_eq, Finset.sum_add_distrib, lost]

/-- The sequential ledger is ahead by the amount that is being paid out. -/
theorem InStep.supply_midway (holds : InStep p calls l a c) :
    c.shared.ledger.supply + weight (fun i => midwayBy (calls i)) c = a.supply := by
  by_cases midway : ∃ i, c.phase i = .running .credit
  · obtain ⟨i, there⟩ := midway
    have only : ∀ j ∈ Finset.univ, j ≠ i → midwayBy (calls j) (c.phase j) = 0 := by
      intro j _ different
      refine midwayBy_ne fun too => different ?_
      exact holds.exclusive j i (by rw [too]; trivial) (by rw [there]; trivial)
    have between := holds.between i there
    rw [weight, Finset.sum_eq_single i only fun absent => absurd (Finset.mem_univ i) absent, there]
    cases call : calls i with
    | register | credit =>
      rw [call] at between
      exact absurd between id
    | transfer fromAddr toAddr amount nonce =>
      rw [call] at between
      obtain ⟨accepts, _, current⟩ := between
      rw [current]
      exact accepts.1.supply_debited
  · have none : ∀ i, c.phase i ≠ .running .credit := fun i there => midway ⟨i, there⟩
    have nothing : weight (fun i => midwayBy (calls i)) c = 0 :=
      Finset.sum_eq_zero fun i _ => midwayBy_ne (none i)
    rw [nothing, Nat.add_zero, holds.settled none]

variable [DecidableEq ι]

/-- A snapshot that reads the whole map at any one moment of concurrent calls
falls short of all that was there and has been put into circulation by
exactly the amounts of the torn transfers: of the one that stands between its
two steps, and of those that a panic has broken off there. -/
theorem snapshot_shortfall (p : Profile) (calls : ι → Operation) (l : Ledger) (schedule : List ι)
    (room : l.supply + circulated calls (runs (object p) calls (start ⟨l, false⟩) schedule) < 2 ^ 64) :
    (runs (object p) calls (start ⟨l, false⟩) schedule).shared.ledger.snapshotTotal +
        missing calls (runs (object p) calls (start ⟨l, false⟩) schedule) =
      l.supply + circulated calls (runs (object p) calls (start ⟨l, false⟩) schedule) := by
  have guarded : ∀ early later, schedule = early ++ later →
      l.supply + circulated calls (runs (object p) calls (start ⟨l, false⟩) early) < 2 ^ 64 := by
    rintro early later rfl
    rw [runs_append] at room
    have grows : circulated calls (runs (object p) calls (start ⟨l, false⟩) early) ≤ _ := circulated_le_runs p later
    exact Nat.lt_of_le_of_lt (Nat.add_le_add_left grows _) room
  have follows := ((simulation p calls l).follow (inStep_start p calls l) guarded).1
  have books := follows.supply
  have midway := follows.supply_midway
  rw [snapshotTotal_eq, missing_eq]
  omega

end Concurrent

/-- The payee has registered with 50, and the payment of 4 out of 10 is
half-way. -/
theorem snapshot_shortfall_meeting :
    (runs (object .dev) meeting (start ⟨new.set (sampleWallet 2).address ⟨10, 0⟩, false⟩)
        [true, true, false]).shared.ledger.snapshotTotal +
        missing meeting (runs (object .dev) meeting (start ⟨new.set (sampleWallet 2).address ⟨10, 0⟩, false⟩)
          [true, true, false]) =
      (new.set (sampleWallet 2).address ⟨10, 0⟩).supply +
        circulated meeting (runs (object .dev) meeting
          (start ⟨new.set (sampleWallet 2).address ⟨10, 0⟩, false⟩) [true, true, false]) :=
  snapshot_shortfall .dev meeting _ _ (by decide +kernel)

end Ledger
end SecureExchange
