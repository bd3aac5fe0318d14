import SecureExchange.Overflow

namespace SecureExchange
open Reactive

namespace Node
variable {C : Primitives} {Peer : Type}

/-- A command answers nobody. -/
theorem handleCommand_silent {p : Profile} {n : Node C Peer} {line : String} {now : UInt64}
    {publishOk : Bool} {peer : Peer} {response : TransferResponse} :
    .sendResponse peer response ∉ (n.handleCommand p line now publishOk).output := by
  cases send : parseSend line with
  | none =>
    obtain ⟨texts, same⟩ := handleCommand_of_other p n now publishOk send
    simp [same]
  | some parsed =>
    rw [handleCommand_of_send send]
    unfold sendTransfer
    dsimp only
    split
    · simp [Reaction.stay]
    · split
      · simp
      · simp
      · split
        · simp
        · simp

theorem handleGossip_silent {p : Profile} {n : Node C Peer} {data : List UInt8} {peer : Peer}
    {response : TransferResponse} : .sendResponse peer response ∉ (n.handleGossip p data).output := by
  unfold handleGossip
  split
  · simp [Reaction.stay]
  · dsimp only
    split
    · simp [Reaction.stay]
    · split
      · simp [Reaction.stay]
      · split
        · split
          · simp
          · simp
        · simp

theorem handleTransferRequest_answers {p : Profile} {n : Node C Peer} {asker peer : Peer}
    {request : TransferRequest} {response : TransferResponse}
    (member : .sendResponse peer response ∈ (n.handleTransferRequest p asker request).output) :
    peer = asker := by
  unfold handleTransferRequest at member
  split at member
  · rw [List.mem_singleton, Effect.sendResponse.injEq] at member
    exact member.1
  · dsimp only at member
    split at member
    · rw [List.mem_singleton, Effect.sendResponse.injEq] at member
      exact member.1
    · split at member
      · rw [List.mem_singleton, Effect.sendResponse.injEq] at member
        exact member.1
      · split at member
        · cases List.mem_singleton.mp member
        · simp only [List.mem_cons, reduceCtorEq, false_or, Effect.sendResponse.injEq,
            List.not_mem_nil, or_false] at member
          exact member.1

variable [DecidableEq Peer]

/-- Only a request is answered, and to whoever made it. A verified
transaction is accepted with its credit, or refused for its address. -/
theorem response_handle {p : Profile} {n : Node C Peer} {ev : Event Peer} {peer : Peer}
    {response : TransferResponse} (member : .sendResponse peer response ∈ (n.handle p ev).output) :
    ∃ request, ev = .transferRequest peer request ∧
      ∀ tx, SignedTransaction.fromRlpBytes request.txRlp = .ok tx → tx.Verified C →
        response.txHash = tx.hash C ∧
          (response.accepted = true ∧ tx.toAddr = n.wallet.address ∧
              tx ∈ creditsIn (n.handle p ev).output ∨
            response.accepted = false ∧ tx.toAddr ≠ n.wallet.address) := by
  cases ev with
  | stdin line now publishOk => exact absurd member handleCommand_silent
  | gossip data => exact absurd member handleGossip_silent
  | transferResponse from' answer =>
    simp only [handle, handleTransferResponse, say] at member
    split at member <;> simp at member
  | connectionEstablished other | connectionClosed other => cases member
  | transferRequest asker request =>
    refine ⟨request, by rw [handleTransferRequest_answers member], fun tx decoded verified => ?_⟩
    rw [SignedTransaction.Verified] at verified
    simp only [handle] at member ⊢
    unfold handleTransferRequest at member ⊢
    simp only [decoded, verified] at member ⊢
    by_cases here : tx.toAddr = n.wallet.address
    · rw [if_neg (not_not.mpr here)] at member ⊢
      cases credit : n.ledger.credit p tx.toAddr tx.amount with
      | panicked ledger => simp [credit] at member
      | returned ledger =>
        simp only [credit, List.mem_cons, reduceCtorEq, false_or, Effect.sendResponse.injEq,
          List.not_mem_nil, or_false] at member ⊢
        rw [member.2]
        exact ⟨rfl, Or.inl ⟨rfl, here, List.mem_cons_self ..⟩⟩
    · rw [if_pos here, List.mem_singleton, Effect.sendResponse.injEq] at member
      rw [member.2]
      exact ⟨rfl, Or.inr ⟨rfl, here⟩⟩

end Node

namespace Network
variable {C : Primitives} {ι : Type} [DecidableEq ι] [Fintype ι]

/-- The verdict of a response agrees with what its sender has done about
the transaction that it names. -/
def Agrees (wallets : ι → Wallet C) (past : List (ι × Effect ι)) (responder : ι)
    (response : TransferResponse) : Prop :=
  ∃ tx ∈ sentIn past, response.txHash = tx.hash C ∧
    (response.accepted = true ∧ tx.toAddr = (wallets responder).address ∧
        tx ∈ creditsIn (outputOf responder past) ∨
      response.accepted = false ∧ tx.toAddr ≠ (wallets responder).address)

omit [Fintype ι] in
theorem Agrees.later {wallets : ι → Wallet C} {past : List (ι × Effect ι)} {responder : ι}
    {response : TransferResponse} (agrees : Agrees wallets past responder response)
    (more : List (ι × Effect ι)) : Agrees wallets (past ++ more) responder response := by
  obtain ⟨tx, sent, hash, verdict⟩ := agrees
  refine ⟨tx, by rw [sentIn_append]; exact List.mem_append_left _ sent, hash, ?_⟩
  rcases verdict with ⟨accepted, here, credited⟩ | refused
  · rw [outputOf_append, creditsIn_append]
    exact Or.inl ⟨accepted, here, List.mem_append_left _ credited⟩
  · exact Or.inr refused

/-- All responses under way in an honest network agree with the outcome. -/
structure Answered (wallets : ι → Wallet C) (net : Network C ι) (past : List (ι × Effect ι)) : Prop where
  honest : Honest net past
  own : ∀ i, (net.parts i).wallet = wallets i
  answered : ∀ src dst response, .response src dst response ∈ net.shared →
    Agrees wallets past src response

theorem response_of_sentBy {i : ι} {e : Effect ι} {src dst : ι} {response : TransferResponse}
    (sent : .response src dst response ∈ sentBy i e) :
    src = i ∧ e = .sendResponse dst response := by
  cases e with
  | sendResponse peer answer =>
    rw [sentBy, Multiset.mem_singleton, Message.response.injEq] at sent
    obtain ⟨rfl, rfl, rfl⟩ := sent
    exact ⟨rfl, rfl⟩
  | sendRequest peers asked =>
    obtain ⟨peer, _, same⟩ := Multiset.mem_map.mp sent
    cases same
  | publish topic data ok =>
    simp only [sentBy] at sent
    split at sent
    · obtain ⟨j, _, same⟩ := Multiset.mem_map.mp sent
      cases same
    · exact absurd sent (Multiset.notMem_zero _)
  | transferred | credited | println => exact absurd sent (Multiset.notMem_zero _)

theorem answered_step {p : Profile} {wallets : ι → Wallet C} {net : Network C ι}
    {past : List (ι × Effect ι)} (holds : Answered wallets net past) (action : Action ι) :
    Answered wallets (react p net action).state (past ++ (react p net action).output) := by
  refine ⟨honest_step holds.honest action, fun i => (wallet_move p net action i).trans (holds.own i), ?_⟩
  intro src dst response member
  cases moves : move schedule net action with
  | none =>
    rw [react, interleave_idle moves] at member ⊢
    exact (holds.answered src dst response member).later _
  | some turn =>
    obtain ⟨i, ev⟩ := turn
    have underway := member
    rw [react, interleave_move moves] at underway
    rcases mem_after underway with old | ⟨e, among, sent⟩
    · exact (holds.answered src dst response old).later _
    obtain ⟨rfl, rfl⟩ := response_of_sentBy sent
    obtain ⟨request, rfl, verdict⟩ := Node.response_handle among
    -- The request was under way, so it carries what some node sent.
    obtain ⟨m, rfl⟩ : ∃ m, action = .deliver m := by
      cases action with
      | deliver m => exact ⟨m, rfl⟩
      | command | connect | disconnect => cases (move_spec moves).1
    obtain ⟨present, _, event⟩ := deliver_spec moves
    have carries : m.data = some request.txRlp := by
      cases m with
      | request asker asked r => cases event; rfl
      | gossip | response => cases event
    obtain ⟨tx, before, bytes⟩ := holds.honest.carried m present _ carries
    obtain ⟨hash, outcome⟩ := verdict tx (by rw [bytes, tx.fromRlpBytes_encoded]) (holds.honest.verified tx before)
    rw [holds.own] at outcome
    refine ⟨tx, by rw [sentIn_append]; exact List.mem_append_left _ before, hash, ?_⟩
    rcases outcome with ⟨accepted, here, credited⟩ | refused
    · rw [outputOf_append, creditsIn_append, react, (interleave_own (Node.handle p) moves).2.2]
      exact Or.inl ⟨accepted, here, List.mem_append_right _ credited⟩
    · exact Or.inr refused

omit [Fintype ι] in
theorem sentIn_of_outputOf {past : List (ι × Effect ι)} {i : ι} {tx : SignedTransaction}
    (sent : tx ∈ transfersIn (outputOf i past)) : tx ∈ sentIn past := by
  have effect := mem_outputOf.mp (mem_transfersIn.mp sent)
  exact mem_transfersIn.mpr (List.mem_map_of_mem (f := Prod.snd) effect)

section Runs
variable {p : Profile} {wallets : ι → Wallet C} {genesis : ι → UInt64} {actions : List (Action ι)}

theorem answered_run : Answered wallets (run (react p) (start wallets genesis) actions).state
    (run (react p) (start wallets genesis) actions).output := by
  have begin : Answered wallets (start wallets genesis) [] := by
    refine ⟨honest_start, fun i => rfl, fun src dst response member => ?_⟩
    exact absurd member (Multiset.notMem_zero _)
  exact run_always (G := fun _ _ => True) (fun _ _ action holds _ => answered_step holds action) begin
    fun _ _ => trivial

/-- A node only ever credits what is addressed to its own wallet. -/
theorem credited_address {i : ι} {tx : SignedTransaction}
    (credited : tx ∈ creditsIn (outputOf i (run (react p) (start wallets genesis) actions).output)) :
    tx.toAddr = (wallets i).address := by
  have alone := node_run p wallets genesis actions i
  have inRun : tx ∈ creditsIn (run (Node.handle p) (.start (wallets i) (genesis i))
      (inputsOf schedule i (steps (react p) (start wallets genesis) actions))).output := by
    rw [alone]
    exact credited
  obtain ⟨st, member, admits⟩ := Node.mem_creditsIn_run.mp inRun
  obtain ⟨_, _, _, _, _, own, _⟩ := Node.step_history member
  have here := (Node.admitted_spec admits).2.2
  rw [own] at here
  exact here

/-- A response on its way to the sender of a transaction tells the truth
about the responder: an acceptance comes after the addressee's credit, and a
refusal comes from a node that is not the addressee and never credits the
transaction. It tells nothing about any other node. -/
theorem response_agrees_with_outcome {earlier later : List (Action ι)} {sender responder : ι}
    {tx : SignedTransaction} {response : TransferResponse}
    (free : CollisionFree C (sentIn (run (react p) (start wallets genesis) (earlier ++ later)).output))
    (sent : tx ∈ transfersIn
      (outputOf sender (run (react p) (start wallets genesis) (earlier ++ later)).output))
    (received : .response responder sender response ∈
      (run (react p) (start wallets genesis) earlier).state.shared)
    (about : response.txHash = tx.hash C) :
    (response.accepted = true → ∃ i, tx.toAddr = (wallets i).address ∧
        tx ∈ creditsIn (outputOf i (run (react p) (start wallets genesis) earlier).output)) ∧
      (response.accepted = false → tx.toAddr ≠ (wallets responder).address ∧
        tx ∉ creditsIn
          (outputOf responder (run (react p) (start wallets genesis) (earlier ++ later)).output)) := by
  obtain ⟨other, before, hash, verdict⟩ := answered_run.answered _ _ _ received
  have within : other ∈ sentIn (run (react p) (start wallets genesis) (earlier ++ later)).output := by
    have live : (run (react p) (start wallets genesis) earlier).halted = false := run_interleave_live _ _
    rw [run_append live, sentIn_append]
    exact List.mem_append_left _ before
  have same := free.eq_of_hash within (sentIn_of_outputOf sent) (hash.symm.trans about)
  subst same
  rcases verdict with ⟨accepted, here, credited⟩ | ⟨refused, elsewhere⟩
  · refine ⟨fun _ => ⟨responder, here, credited⟩, fun refused => ?_⟩
    rw [accepted] at refused
    cases refused
  · refine ⟨fun accepted => ?_, fun _ => ⟨elsewhere, fun credited => ?_⟩⟩
    · rw [refused] at accepted
      cases accepted
    · exact elsewhere (credited_address credited)

/-- A payer connected to the payee and to a bystander, who both get the
request. -/
def bystander : List (Action (Fin 3)) :=
  [.connect 0 1, .connect 0 2, .command 0 sampleLine 0 true,
    .deliver (.request 0 1 ⟨(samplePayment 30 0).toRlpBytes⟩),
    .deliver (.request 0 2 ⟨(samplePayment 30 0).toRlpBytes⟩)]

def sampleTrio : Fin 3 → Wallet samplePrimitives := ![sampleWallet 2, sampleWallet 1, sampleWallet 3]

/-- What the bystander answers. -/
def refusal : TransferResponse :=
  ⟨false, "Transaction not addressed to this node", (samplePayment 30 0).hash samplePrimitives⟩

theorem response_agrees_with_outcome_bystander :
    (refusal.accepted = true → ∃ i, (samplePayment 30 0).toAddr = (sampleTrio i).address ∧
        samplePayment 30 0 ∈ creditsIn
          (outputOf i (run (react .dev) (start sampleTrio ![1000, 0, 0]) bystander).output)) ∧
      (refusal.accepted = false → (samplePayment 30 0).toAddr ≠ (sampleTrio 2).address ∧
        samplePayment 30 0 ∉ creditsIn
          (outputOf 2 (run (react .dev) (start sampleTrio ![1000, 0, 0]) (bystander ++ [])).output)) := by
  have sent : samplePayment 30 0 ∈ transfersIn (outputOf 0
      (run (react .dev) (start sampleTrio ![1000, 0, 0]) (bystander ++ [])).output) := by decide +kernel
  have about : refusal.txHash = (samplePayment 30 0).hash samplePrimitives := by rw [refusal]
  refine response_agrees_with_outcome (by decide +kernel) sent ?_ about
  decide +kernel

/-- The payer is told of a refusal although the payee has the money. -/
theorem refused_though_credited :
    move schedule (run (react .dev) (start sampleTrio ![1000, 0, 0]) bystander).state
        (.deliver (.response 2 0 refusal)) = some (0, .transferResponse 2 refusal) ∧
      samplePayment 30 0 ∈ transfersIn
        (outputOf 0 (run (react .dev) (start sampleTrio ![1000, 0, 0]) bystander).output) ∧
      ¬ ∀ i, samplePayment 30 0 ∉ creditsIn
        (outputOf i (run (react .dev) (start sampleTrio ![1000, 0, 0]) bystander).output) := by
  decide +kernel

end Runs
end Network
end SecureExchange
