import SecureExchange.Library.Conversation
import SecureExchange.SecureTransfer

namespace SecureExchange
open Process

/-- A length prefix and a payload. -/
def frame (data : List UInt8) : List UInt8 := LittleEndian.encode 4 data.length ++ data

theorem dataLimit_lt : Utils.dataLimit < 2 ^ 32 := by decide

/-- What a stream starts with, for a reader with a limit on frames: a
payload with the bytes after it, or the reason why there is none. -/
def firstFrame (s : List UInt8) : Except String (List UInt8 × List UInt8) :=
  if s.length < 4 then .error "Failed to receive data length"
  else if LittleEndian.value (s.take 4) > Utils.dataLimit then .error "Data size too large"
  else if (s.drop 4).length < LittleEndian.value (s.take 4) then .error "Failed to receive data"
  else .ok ((s.drop 4).splitAt (LittleEndian.value (s.take 4)))

theorem firstFrame_short {s : List UInt8} (short : s.length < 4) :
    firstFrame s = .error "Failed to receive data length" := if_pos short

section Header
variable {header body : List UInt8} (four : header.length = 4)
include four

theorem firstFrame_large (large : LittleEndian.value header > Utils.dataLimit) :
    firstFrame (header ++ body) = .error "Data size too large" := by
  rw [firstFrame, List.length_append, if_neg (by omega), List.take_left' four, if_pos large]

theorem firstFrame_few (small : LittleEndian.value header ≤ Utils.dataLimit)
    (few : body.length < LittleEndian.value header) : firstFrame (header ++ body) = .error "Failed to receive data" := by
  rw [firstFrame, List.length_append, if_neg (by omega), List.take_left' four, List.drop_left' four,
    if_neg (Nat.not_lt.mpr small), if_pos few]

theorem firstFrame_whole {data rest : List UInt8} (small : LittleEndian.value header ≤ Utils.dataLimit)
    (whole : data.length = LittleEndian.value header) : firstFrame (header ++ (data ++ rest)) = .ok (data, rest) := by
  have enough : ¬ (data ++ rest).length < LittleEndian.value header := by
    rw [List.length_append]
    omega
  rw [firstFrame, List.length_append, if_neg (by omega), List.take_left' four, List.drop_left' four,
    if_neg (Nat.not_lt.mpr small), if_neg enough, List.splitAt_eq, List.take_left' whole, List.drop_left' whole]

end Header

/-- The first frame of a stream is what its length prefix says. -/
theorem firstFrame_eq_ok {s data rest : List UInt8} :
    firstFrame s = .ok (data, rest) ↔ s = frame data ++ rest ∧ data.length ≤ Utils.dataLimit := by
  constructor
  · intro first
    by_cases short : s.length < 4
    · rw [firstFrame_short short] at first
      cases first
    have four : (s.take 4).length = 4 := List.length_take_of_le (by omega)
    have header := LittleEndian.encode_value (s.take 4)
    rw [firstFrame, if_neg short] at first
    split at first
    · cases first
    split at first
    · cases first
    rename_i small enough
    rw [List.splitAt_eq, Except.ok.injEq, Prod.mk.injEq] at first
    obtain ⟨rfl, rfl⟩ := first
    have size : ((s.drop 4).take (LittleEndian.value (s.take 4))).length = LittleEndian.value (s.take 4) :=
      List.length_take_of_le (Nat.not_lt.mp enough)
    rw [four] at header
    rw [frame, size, header, List.append_assoc, List.take_append_drop, List.take_append_drop]
    exact ⟨rfl, Nat.not_lt.mp small⟩
  · rintro ⟨rfl, small⟩
    have value : LittleEndian.value (LittleEndian.encode 4 data.length) = data.length :=
      LittleEndian.value_encode (small.trans_lt dataLimit_lt)
    rw [frame, List.append_assoc]
    exact firstFrame_whole (LittleEndian.length_encode ..) (value.trans_le small) value.symm

namespace Utils
section Scripts
variable {me : Side} {rest : Script}

/-- In a conversation a `send` takes everything, so the loop runs once. -/
theorem sendRest_script (data : List UInt8) {sent : Nat} (within : sent ≤ data.length) :
    Meets (script me) (sendRest data sent) (spoken me (data.drop sent) ++ rest)
      fun r rest' => r = .ok true ∧ rest' = rest := by
  have last : ∀ n, data.length ≤ n → sendRest data n = .ret true := by
    intro n done
    rw [sendRest, if_neg (by omega)]
  by_cases more : sent < data.length
  · rw [sendRest, if_pos more]
    refine Meets.of_send ⟨_, rest, rfl, rfl⟩ ?_
    rintro n rest' ⟨rfl, split⟩
    rw [List.length_drop, if_neg (by omega), last _ (by omega)]
    exact ⟨rfl, (List.append_cancel_left split).symm⟩
  · rw [last _ (by omega), List.drop_eq_nil_of_le (by omega)]
    exact ⟨rfl, rfl⟩

theorem sendData_script {data : List UInt8} (bound : data.length < 2 ^ 32) :
    Meets (script me) (sendData data) (spoken me (frame data) ++ rest)
      fun r rest' => r = .ok true ∧ rest' = rest := by
  rw [sendData, Nat.mod_eq_of_lt bound, frame, spoken_append, List.append_assoc]
  refine Meets.of_send ⟨_, _, rfl, rfl⟩ ?_
  rintro n rest' ⟨rfl, split⟩
  rw [LittleEndian.length_encode, if_neg (by decide), ← List.append_cancel_left split]
  exact sendRest_script data (Nat.zero_le _)

/-- Each call of the loop reads a part of what the other side says next. -/
theorem receiveRest_script {len : Nat} {received more : List UInt8} (length : received.length + more.length = len) :
    Meets (script me) (receiveRest len received) (spoken me.other more ++ rest)
      fun r rest' => r = .ok (received ++ more) ∧ rest' = rest := by
  induction remaining : more.length using Nat.strong_induction_on generalizing received more with
  | _ k ih =>
    rw [receiveRest]
    split
    · rename_i short
      have some : more ≠ [] := List.ne_nil_of_length_pos (by omega)
      refine Meets.of_recv ⟨more, rest, rfl, by omega, some⟩ ?_
      rintro chunk rest' ⟨split, within, ready⟩
      have nonempty : chunk ≠ [] := ready
      have positive := List.length_pos_of_ne_nil nonempty
      obtain ⟨later, rfl, rfl⟩ := spoken_split (by omega) split
      rw [List.length_append] at length remaining
      rw [if_neg nonempty, ← List.append_assoc]
      exact ih later.length (by omega) (by rw [List.length_append]; omega) rfl
    · have done : more = [] := List.eq_nil_of_length_eq_zero (by omega)
      rw [done, List.append_nil]
      exact ⟨rfl, rfl⟩

theorem receiveData_script {data : List UInt8} (small : data.length ≤ dataLimit) :
    Meets (script me) receiveData (spoken me.other (frame data) ++ rest)
      fun r rest' => r = .ok data ∧ rest' = rest := by
  have header := LittleEndian.length_encode 4 data.length
  have value : LittleEndian.value (LittleEndian.encode 4 data.length) = data.length :=
    LittleEndian.value_encode (small.trans_lt dataLimit_lt)
  rw [frame, spoken_append, List.append_assoc]
  refine Meets.of_recv ⟨_, _, rfl, header.le, header⟩ ?_
  rintro len rest' ⟨split, -, four⟩
  obtain ⟨same, after⟩ := List.append_inj split (by rw [length_spoken, length_spoken]; exact header.trans four.symm)
  rw [← spoken_inj same, ← after, value, if_neg (not_not_intro header), if_neg (Nat.not_lt.mpr small)]
  exact receiveRest_script (Nat.zero_add _)

end Scripts

section Streams
variable {e : Stream}

/-- A loop of partial writes that succeeds has written everything. -/
theorem sendRest_stream (data : List UInt8) {sent : Nat} (within : sent ≤ data.length) :
    Meets stream (sendRest data sent) e fun r e' => e'.unread = e.unread ∧
      ∃ done, r = .ok done ∧ (done = true → e'.written = e.written ++ data.drop sent) := by
  induction remaining : data.length - sent using Nat.strong_induction_on generalizing e sent with
  | _ k ih =>
    rw [sendRest]
    split
    · refine Meets.of_send (stream_sends ..) ?_
      rintro n e' ⟨bound, rfl⟩
      rw [List.length_drop] at bound
      split
      · exact ⟨rfl, false, rfl, fun no => by cases no⟩
      · refine (ih (data.length - (sent + n)) (by omega) (by omega) rfl).mono ?_
        rintro r e' ⟨unread, done, rfl, written⟩
        refine ⟨unread, done, rfl, fun yes => ?_⟩
        rw [written yes, List.append_assoc, ← List.drop_drop, List.take_append_drop]
    · rw [List.drop_eq_nil_of_le (by omega)]
      exact ⟨rfl, true, rfl, fun _ => (List.append_nil _).symm⟩

/-- Whatever writes are short or fail, `sendData` reports success only
when it has written the frame. -/
theorem sendData_stream {data : List UInt8} (bound : data.length < 2 ^ 32) :
    Meets stream (sendData data) e fun r e' => e'.unread = e.unread ∧
      ∃ done, r = .ok done ∧ (done = true → e'.written = e.written ++ frame data) := by
  rw [sendData, Nat.mod_eq_of_lt bound]
  refine Meets.of_send (stream_sends ..) ?_
  rintro n e' ⟨-, rfl⟩
  split
  · exact ⟨rfl, false, rfl, fun no => by cases no⟩
  · rename_i four
    refine (sendRest_stream data (Nat.zero_le _)).mono ?_
    rintro r e' ⟨unread, done, rfl, written⟩
    refine ⟨unread, done, rfl, fun yes => ?_⟩
    rw [written yes, Classical.not_not.mp four, List.take_of_length_le (LittleEndian.length_encode ..).le, frame,
      List.append_assoc, List.drop_zero]

/-- However reads are cut, the loop collects the next bytes of the stream,
or finds that there are too few. -/
theorem receiveRest_stream {len : Nat} {received : List UInt8} (within : received.length ≤ len) :
    Meets stream (receiveRest len received) e fun r e' =>
      match r with
      | .ok data => ∃ more, data = received ++ more ∧ data.length = len ∧ e.unread = more ++ e'.unread
      | .error text => text = "Failed to receive data" ∧ received.length + e.unread.length < len := by
  induction remaining : len - received.length using Nat.strong_induction_on generalizing e received with
  | _ k ih =>
    rw [receiveRest]
    split
    · refine Meets.of_recv (stream_recvs ..) ?_
      rintro chunk e' ⟨split, -, bound, served⟩
      split
      · rename_i short none
        subst none
        have ended : e'.unread = [] := served.resolve_left fun full => full.elim (fun zero => by omega) (absurd rfl)
        have nothing : e.unread = [] := by rw [split, ended, List.append_nil]
        rw [nothing]
        exact ⟨rfl, short⟩
      · rename_i short some
        have positive := List.length_pos_of_ne_nil some
        have total : (received ++ chunk).length = received.length + chunk.length := List.length_append
        refine (ih (len - (received ++ chunk).length) (by omega) (by omega) rfl).mono ?_
        rintro (message | data) e'' post
        · obtain ⟨text, few⟩ := post
          rw [split, List.length_append]
          exact ⟨text, by omega⟩
        · obtain ⟨more, rfl, whole, rest⟩ := post
          exact ⟨chunk ++ more, List.append_assoc .., whole, by rw [split, rest, List.append_assoc]⟩
    · exact ⟨[], (List.append_nil _).symm, by omega, rfl⟩

/-- `receiveData` says of a stream what its first bytes say, errors
included, and leaves the bytes after the frame. -/
theorem receiveData_firstFrame : Meets stream receiveData e fun r e' =>
    match r with
    | .ok data => firstFrame e.unread = .ok (data, e'.unread)
    | .error text => firstFrame e.unread = .error text := by
  refine Meets.of_recv (stream_recvs ..) ?_
  rintro len e' ⟨split, -, bound, served⟩
  split
  · rename_i short
    have ended : e'.unread = [] := served.resolve_left short
    exact firstFrame_short (by rw [split, ended, List.append_nil]; omega)
  · rename_i four
    have four : len.length = 4 := Classical.not_not.mp four
    split
    · rename_i large
      show firstFrame e.unread = _
      rw [split]
      exact firstFrame_large four large
    · rename_i small
      have small := Nat.not_lt.mp small
      refine (receiveRest_stream (Nat.zero_le _)).mono ?_
      rintro (message | data) e'' post
      · obtain ⟨rfl, few⟩ := post
        show firstFrame e.unread = _
        rw [split]
        exact firstFrame_few four small (by rwa [List.length_nil, Nat.zero_add] at few)
      · obtain ⟨more, rfl, whole, rest⟩ := post
        show firstFrame e.unread = _
        rw [split, rest]
        exact firstFrame_whole four small whole

/-- `receiveData` returns what the stream has as its first frame, and
fails when the stream does not start with one within the limit. -/
theorem receiveData_stream : Meets stream receiveData e fun r e' =>
    match r with
    | .ok data => data.length ≤ dataLimit ∧ e.unread = frame data ++ e'.unread
    | .error _ => ∀ data rest, data.length ≤ dataLimit → e.unread ≠ frame data ++ rest := by
  refine receiveData_firstFrame.mono ?_
  rintro (message | data) e' post
  · intro data rest small same
    cases post.symm.trans (firstFrame_eq_ok.mpr ⟨same, small⟩)
  · exact (firstFrame_eq_ok.mp post).symm

/-- A stream that starts with a frame is received as that frame. -/
theorem receiveData_frame {data rest : List UInt8} (small : data.length ≤ dataLimit) (starts : e.unread = frame data ++ rest) :
    Meets stream receiveData e fun r e' => r = .ok data ∧ e'.unread = rest := by
  have first := firstFrame_eq_ok.mpr ⟨starts, small⟩
  refine receiveData_firstFrame.mono ?_
  rintro (message | found) e' post
  · cases first.symm.trans post
  · cases first.symm.trans post
    exact ⟨rfl, rfl⟩

end Streams
end Utils
end SecureExchange
