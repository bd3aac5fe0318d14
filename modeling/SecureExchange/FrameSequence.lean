import SecureExchange.Framing

namespace SecureExchange
open Process

namespace Utils

/-- Payloads sent one after the other, up to the first that fails. -/
def sendEach : List (List UInt8) → Proc Bool
  | [] => .ret true
  | data :: rest => do
    let sent ← sendData data
    if sent then sendEach rest else .ret false

/-- As many payloads as are expected, received one after the other. -/
def receiveEach : Nat → Proc (List (List UInt8))
  | 0 => .ret []
  | n + 1 => do
    let data ← receiveData
    let rest ← receiveEach n
    return data :: rest

/-- The frames of several payloads in order. -/
def frames (payloads : List (List UInt8)) : List UInt8 := payloads.flatMap frame

theorem frames_cons (data : List UInt8) (rest : List (List UInt8)) : frames (data :: rest) = frame data ++ frames rest :=
  List.flatMap_cons

section Streams
variable {e : Stream}

theorem sendEach_stream {payloads : List (List UInt8)} (small : ∀ data ∈ payloads, data.length < 2 ^ 32) :
    Meets stream (sendEach payloads) e fun r e' =>
      ∃ done, r = .ok done ∧ (done = true → e'.written = e.written ++ frames payloads) := by
  induction payloads generalizing e with
  | nil => exact ⟨true, rfl, fun _ => (List.append_nil _).symm⟩
  | cons data rest ih =>
    refine Meets.bind ((sendData_stream (small data List.mem_cons_self)).mono ?_)
    rintro r e' ⟨-, done, rfl, written⟩
    cases done with
    | false => exact ⟨false, rfl, fun no => by cases no⟩
    | true =>
      refine (ih fun later member => small later (List.mem_cons_of_mem _ member)).mono ?_
      rintro r' e'' ⟨done', rfl, written'⟩
      refine ⟨done', rfl, fun yes => ?_⟩
      rw [written' yes, written rfl, frames_cons, List.append_assoc]

/-- Frames that lie one after the other are received one by one. -/
theorem receiveEach_stream {payloads : List (List UInt8)} {rest : List UInt8}
    (small : ∀ data ∈ payloads, data.length ≤ dataLimit) (starts : e.unread = frames payloads ++ rest) :
    Meets stream (receiveEach payloads.length) e fun r e' => r = .ok payloads ∧ e'.unread = rest := by
  induction payloads generalizing e with
  | nil => exact ⟨rfl, starts⟩
  | cons data later ih =>
    rw [frames_cons, List.append_assoc] at starts
    refine Meets.bind ((receiveData_frame (small data List.mem_cons_self) starts).mono ?_)
    rintro r e' ⟨rfl, unread⟩
    refine Meets.bind ((ih (fun each member => small each (List.mem_cons_of_mem _ member)) unread).mono ?_)
    rintro r' e'' ⟨rfl, unread'⟩
    exact ⟨rfl, unread'⟩

end Streams

/-- However reads and writes are cut, `receiveData` reads off a stream what
its first bytes say, and a payload with the rest exactly when the stream is
the payload's frame and the rest; `sendData` reports success only when it
has written the frame; and payloads within the limit that are sent one
after the other are received as they were sent. -/
theorem framing_exact :
    (∀ s written, Settles stream receiveData ⟨s, written⟩ fun r e => r = (firstFrame s).map Prod.fst ∧
      ∀ data rest, r = .ok data ∧ e.unread = rest ↔ s = frame data ++ rest ∧ data.length ≤ dataLimit) ∧
    (∀ data s written, data.length < 2 ^ 32 → Settles stream (sendData data) ⟨s, written⟩ fun r e =>
      r = .ok true → e.written = written ++ frame data) ∧
    ∀ payloads, (∀ data ∈ payloads, data.length ≤ dataLimit) →
      ∀ s, Settles stream (sendEach payloads) ⟨s, []⟩ fun r e => r = .ok true →
        ∀ rest written, Settles stream (receiveEach payloads.length) ⟨e.written ++ rest, written⟩ fun r' e' =>
          r' = .ok payloads ∧ e'.unread = rest := by
  refine ⟨fun s written => ?_, fun data s written bound => ?_, fun payloads small s => ?_⟩
  · refine (receiveData_firstFrame.mono ?_).settles
    rintro (message | found) e post
    · have first : firstFrame s = .error message := post
      rw [first]
      refine ⟨rfl, fun data rest => ?_⟩
      rw [← firstFrame_eq_ok, first]
      simp only [reduceCtorEq, false_and]
    · have first : firstFrame s = .ok (found, e.unread) := post
      rw [first]
      refine ⟨rfl, fun data rest => ?_⟩
      rw [← firstFrame_eq_ok, first, Except.ok.injEq, Except.ok.injEq, Prod.mk.injEq]
  · refine ((sendData_stream bound).mono ?_).settles
    rintro r e ⟨-, done, rfl, wrote⟩ succeeded
    exact wrote (Except.ok.inj succeeded)
  · refine ((sendEach_stream fun data member => (small data member).trans_lt dataLimit_lt).mono ?_).settles
    rintro r e ⟨done, rfl, wrote⟩ succeeded rest written
    refine (receiveEach_stream small ?_).settles
    rw [wrote (Except.ok.inj succeeded), List.nil_append]

end Utils
end SecureExchange
