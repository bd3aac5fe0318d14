import SecureExchange.SecureSession

namespace SecureExchange
open Process

namespace Utils
variable {e : Stream}

/-- A loop of partial writes has written a part of what was left, and all
of it just when it succeeds. -/
theorem sendRest_wire (data : List UInt8) {sent : Nat} (within : sent ≤ data.length) :
    Meets stream (sendRest data sent) e fun r e' => ∃ done part, r = .ok done ∧ e'.unread = e.unread ∧
      e'.written = e.written ++ part ∧ part <+: data.drop sent ∧ (done = true ↔ part = data.drop sent) := by
  induction remaining : data.length - sent using Nat.strong_induction_on generalizing e sent with
  | _ k ih =>
    rw [sendRest]
    split
    · rename_i more
      refine Meets.of_send (stream_sends ..) ?_
      rintro n e' ⟨bound, rfl⟩
      rw [List.length_drop] at bound
      have left : (data.drop sent).length = data.length - sent := List.length_drop
      split
      · rename_i none
        refine ⟨false, [], rfl, rfl, by rw [none, List.take_zero], List.nil_prefix, ?_⟩
        have some : data.drop sent ≠ [] := List.ne_nil_of_length_pos (by omega)
        simpa using some.symm
      · refine (ih (data.length - (sent + n)) (by omega) (by omega) rfl).mono ?_
        rintro r e' ⟨done, part, rfl, unread, written, before, whole⟩
        have split : data.drop sent = (data.drop sent).take n ++ data.drop (sent + n) := by
          rw [← List.drop_drop, List.take_append_drop]
        refine ⟨done, (data.drop sent).take n ++ part, rfl, unread, by rw [written, List.append_assoc], ?_, ?_⟩
        · have longer := (List.prefix_append_right_inj ((data.drop sent).take n)).mpr before
          rwa [← split] at longer
        · rw [whole]
          constructor
          · rintro rfl
            exact split.symm
          · intro same
            exact List.append_cancel_left (same.trans split)
    · rw [List.drop_eq_nil_of_le (by omega)]
      exact ⟨true, [], rfl, rfl, (List.append_nil _).symm, List.nil_prefix, by simp⟩

/-- `sendData` writes a part of its frame, and reports success just when
that is the whole frame. -/
theorem sendData_wire {data : List UInt8} (bound : data.length < 2 ^ 32) :
    Meets stream (sendData data) e fun r e' => ∃ done part, r = .ok done ∧ e'.unread = e.unread ∧
      e'.written = e.written ++ part ∧ part <+: frame data ∧ (done = true ↔ part = frame data) := by
  rw [sendData, Nat.mod_eq_of_lt bound]
  have header := LittleEndian.length_encode 4 data.length
  refine Meets.of_send (stream_sends ..) ?_
  rintro n e' ⟨within, rfl⟩
  split
  · rename_i few
    refine ⟨false, _, rfl, rfl, rfl, (List.take_prefix ..).trans (List.prefix_append ..), ?_⟩
    have short : ((LittleEndian.encode 4 data.length).take n).length < (frame data).length := by
      rw [List.length_take, frame, List.length_append]
      omega
    constructor
    · intro yes
      cases yes
    · intro same
      rw [same] at short
      exact absurd short (Nat.lt_irrefl _)
  · rename_i four
    refine (sendRest_wire data (Nat.zero_le _)).mono ?_
    rintro r e' ⟨done, part, rfl, unread, written, before, whole⟩
    rw [Classical.not_not.mp four, List.take_of_length_le header.le, List.append_assoc] at written
    rw [List.drop_zero] at before whole
    refine ⟨done, _, rfl, unread, written, ?_, ?_⟩
    · exact (List.prefix_append_right_inj _).mpr before
    · rw [whole, frame, List.append_right_inj]

theorem receiveRest_written {len : Nat} {received : List UInt8} :
    Meets stream (receiveRest len received) e fun _ e' => e'.written = e.written := by
  induction remaining : len - received.length using Nat.strong_induction_on generalizing e received with
  | _ k ih =>
    rw [receiveRest]
    split
    · refine Meets.of_recv (stream_recvs ..) ?_
      rintro chunk e' ⟨-, same, -, -⟩
      split
      · exact same
      · rename_i short some
        have positive := List.length_pos_of_ne_nil some
        have total : (received ++ chunk).length = received.length + chunk.length := List.length_append
        refine (ih (len - (received ++ chunk).length) (by omega) rfl).mono ?_
        intro r e'' written
        exact written.trans same
    · exact rfl

/-- Receiving writes nothing. -/
theorem receiveData_written : Meets stream receiveData e fun _ e' => e'.written = e.written := by
  refine Meets.of_recv (stream_recvs ..) ?_
  rintro len e' ⟨-, same, -, -⟩
  split
  · exact same
  · split
    · exact same
    · refine receiveRest_written.mono ?_
      intro r e'' written
      exact written.trans same

end Utils

section Programs
variable (O : OpenSsl)

/-- What the sender encrypts for a peer with this key. -/
def sealedFor (ecc : O.PrivateKey) (iv : FixedBytes 12) (message pem : List UInt8) : Except String (List UInt8) := do
  let peerPublicKey ← ECCCrypto.importPublicKey O pem
  let sharedSecret ← ECCCrypto.deriveSharedSecret O ecc peerPublicKey
  AESCrypto.encrypt O iv message (aesKey sharedSecret)

/-- What the sender says to a peer whose part is given, and how it ends. It
is silent until it has a key, and then says its own before it uses the
peer's. -/
def senderPart (ecc : O.PrivateKey) (iv : FixedBytes 12) (message unread : List UInt8) :
    List UInt8 × Except String Unit :=
  match firstFrame unread with
  | .error text => ([], .error text)
  | .ok (pem, _) =>
    match sealedFor O ecc iv message pem with
    | .error text => (frame (ECCCrypto.exportPublicKey O ecc), .error text)
    | .ok data => (frame (ECCCrypto.exportPublicKey O ecc) ++ frame data, .ok ())

/-- What the receiver makes of a peer's key and of what follows it. -/
def openedFrom (ecc : O.PrivateKey) (pem rest : List UInt8) : Except String (List UInt8) := do
  let peerPublicKey ← ECCCrypto.importPublicKey O pem
  let sharedSecret ← ECCCrypto.deriveSharedSecret O ecc peerPublicKey
  let second ← firstFrame rest
  AESCrypto.decrypt O second.1 (aesKey sharedSecret)

/-- How the receiver ends with a peer whose part is given. -/
def receiverVerdict (ecc : O.PrivateKey) (unread : List UInt8) : Except String (List UInt8) :=
  match firstFrame unread with
  | .error text => .error text
  | .ok (pem, rest) => openedFrom O ecc pem rest

/-- A program has said all of its part and ended as that has it end, or a
send that failed has cut it short. -/
def Speaks {α : Type} (part : List UInt8 × Except String α) (r : Except String α) (e : Stream) : Prop :=
  e.written = part.1 ∧ r = part.2 ∨
    e.written <+: part.1 ∧ e.written ≠ part.1 ∧
      (r = .error "Failed to send public key" ∨ r = .error "Failed to send encrypted data")

variable {O} {ecc : O.PrivateKey} {iv : FixedBytes 12} {message pem data unread rest : List UInt8}

theorem sealedFor_ok (seals : sealedFor O ecc iv message pem = .ok data) : ∃ peer secret,
    ECCCrypto.importPublicKey O pem = .ok peer ∧ ECCCrypto.deriveSharedSecret O ecc peer = .ok secret ∧
      AESCrypto.encrypt O iv message (aesKey secret) = .ok data := by
  unfold sealedFor at seals
  cases imported : ECCCrypto.importPublicKey O pem with
  | error text =>
    rw [imported] at seals
    cases seals
  | ok peer =>
    simp only [imported, bind, Except.bind] at seals
    cases derived : ECCCrypto.deriveSharedSecret O ecc peer with
    | error text =>
      simp only [derived] at seals
      cases seals
    | ok secret =>
      simp only [derived] at seals
      exact ⟨peer, secret, rfl, derived, seals⟩

theorem length_sealedFor (seals : sealedFor O ecc iv message pem = .ok data) : data.length < 2 ^ 32 := by
  obtain ⟨peer, secret, -, -, encrypted⟩ := sealedFor_ok seals
  obtain ⟨input, taken, rfl⟩ := AESCrypto.encrypt_eq.mp encrypted
  have small := (updateInput_eq.mp taken).1
  rw [AESCrypto.length_envelope, O.gcmSeal_length, length_updateInput taken]
  omega

theorem ofExcept_sealedFor {α : Type} (next : List UInt8 → Proc α) :
    (do let peerPublicKey ← .ofExcept (ECCCrypto.importPublicKey O pem)
        let sharedSecret ← .ofExcept (ECCCrypto.deriveSharedSecret O ecc peerPublicKey)
        let encryptedData ← .ofExcept (AESCrypto.encrypt O iv message (aesKey sharedSecret))
        next encryptedData) = Proc.ofExcept (sealedFor O ecc iv message pem) >>= next := by
  simp only [sealedFor, Proc.ofExcept_bind_assoc]

/-- A part that is written to its end, or not. -/
theorem part_whole_or_cut {done : Bool} {part whole : List UInt8} (same : done = true ↔ part = whole) :
    done = true ∧ part = whole ∨ done = false ∧ part ≠ whole := by
  cases done with
  | true => exact Or.inl ⟨rfl, same.mp rfl⟩
  | false => exact Or.inr ⟨rfl, fun both => by cases same.mpr both⟩

/-- A proper part of the first of two texts is one of both. -/
theorem cut_append {part whole : List UInt8} (before : part <+: whole) (short : part ≠ whole) (more : List UInt8) :
    part <+: whole ++ more ∧ part ≠ whole ++ more := by
  refine ⟨before.trans (List.prefix_append ..), ?_⟩
  rintro rfl
  have length := before.length_le
  rw [List.length_append] at length
  have nothing : more = [] := List.eq_nil_of_length_eq_zero (by omega)
  rw [nothing, List.append_nil] at short
  exact short rfl

theorem performSecureTransfer_wire (small : (ECCCrypto.exportPublicKey O ecc).length < 2 ^ 32) :
    Meets stream (SecureSender.performSecureTransfer O ecc iv message) ⟨unread, []⟩
      (Speaks (senderPart O ecc iv message unread)) := by
  refine Meets.bind ((Utils.receiveData_firstFrame.and Utils.receiveData_written).mono ?_)
  rintro (text | pem) e ⟨first, written⟩
  · have first : firstFrame unread = .error text := first
    simp only [senderPart, first]
    exact Or.inl ⟨written, rfl⟩
  have first : firstFrame unread = .ok (pem, e.unread) := first
  have silent : e.written = [] := written
  refine Meets.bind ((Utils.sendData_wire small).mono ?_)
  rintro r e' ⟨done, part, rfl, -, said, before, whole⟩
  rw [silent, List.nil_append] at said
  simp only [senderPart, first]
  rcases part_whole_or_cut whole with ⟨rfl, rfl⟩ | ⟨rfl, cut⟩
  · show Meets stream (_ >>= _) _ _
    rw [ofExcept_sealedFor]
    cases seals : sealedFor O ecc iv message pem with
    | error text => exact Or.inl ⟨said, rfl⟩
    | ok data =>
      rw [Proc.ofExcept_ok_bind]
      refine Meets.bind ((Utils.sendData_wire (length_sealedFor seals)).mono ?_)
      rintro r e'' ⟨done, part, rfl, -, more, before, whole⟩
      rw [said] at more
      rcases part_whole_or_cut whole with ⟨rfl, rfl⟩ | ⟨rfl, cut⟩
      · exact Or.inl ⟨more, rfl⟩
      · refine Or.inr ⟨?_, ?_, Or.inr rfl⟩
        · rw [more]
          exact (List.prefix_append_right_inj _).mpr before
        · rw [more]
          exact fun same => cut (List.append_cancel_left same)
  · refine Or.inr ?_
    rw [said]
    cases sealedFor O ecc iv message pem with
    | error text => exact ⟨before, cut, Or.inl rfl⟩
    | ok data => exact ⟨(cut_append before cut _).1, (cut_append before cut _).2, Or.inl rfl⟩

/-- Once the receiver has the peer's key, it says nothing more. -/
theorem openedFrom_wire {e : Stream} : Meets stream
    (do let peerPublicKey ← .ofExcept (ECCCrypto.importPublicKey O pem)
        let sharedSecret ← .ofExcept (ECCCrypto.deriveSharedSecret O ecc peerPublicKey)
        let encryptedData ← Utils.receiveData
        .ofExcept (AESCrypto.decrypt O encryptedData (aesKey sharedSecret))) e
      fun r e' => e'.written = e.written ∧ r = openedFrom O ecc pem e.unread := by
  unfold openedFrom
  cases ECCCrypto.importPublicKey O pem with
  | error text => exact ⟨rfl, rfl⟩
  | ok peer =>
    rw [Proc.ofExcept_ok_bind]
    cases derived : ECCCrypto.deriveSharedSecret O ecc peer with
    | error text => exact ⟨rfl, by simp only [bind, Except.bind, derived]⟩
    | ok secret =>
      rw [Proc.ofExcept_ok_bind]
      refine Meets.bind ((Utils.receiveData_firstFrame.and Utils.receiveData_written).mono ?_)
      rintro (text | data) e' ⟨second, silent⟩
      · have second : firstFrame e.unread = .error text := second
        exact ⟨silent, by simp only [bind, Except.bind, derived, second]⟩
      · have second : firstFrame e.unread = .ok (data, e'.unread) := second
        exact meets_ofExcept.mpr ⟨silent, by simp only [bind, Except.bind, derived, second]⟩

theorem handleClient_wire (small : (ECCCrypto.exportPublicKey O ecc).length < 2 ^ 32) :
    Meets stream (SecureReceiver.handleClient O ecc) ⟨unread, []⟩
      (Speaks (frame (ECCCrypto.exportPublicKey O ecc), receiverVerdict O ecc unread)) := by
  refine Meets.bind ((Utils.sendData_wire small).mono ?_)
  rintro r e ⟨done, part, rfl, rest, said, before, whole⟩
  have rest : e.unread = unread := rest
  rw [List.nil_append] at said
  rcases part_whole_or_cut whole with ⟨rfl, rfl⟩ | ⟨rfl, cut⟩
  · refine Meets.bind ((Utils.receiveData_firstFrame.and Utils.receiveData_written).mono ?_)
    rw [rest]
    rintro (text | pem) e' ⟨first, written⟩
    · have first : firstFrame unread = .error text := first
      exact Or.inl ⟨written.trans said, by simp only [receiverVerdict, first]⟩
    · have first : firstFrame unread = .ok (pem, e'.unread) := first
      refine openedFrom_wire.mono ?_
      rintro r e'' ⟨silent, rfl⟩
      exact Or.inl ⟨silent.trans (written.trans said), by simp only [receiverVerdict, first]⟩
  · rw [← said] at before cut
    exact Or.inr ⟨before, cut, Or.inl rfl⟩

/-- Frames are told apart where they end. -/
theorem frame_append_inj {left right : List UInt8} (short : left.length < 2 ^ 32) (short' : right.length < 2 ^ 32)
    {more more' : List UInt8} (same : frame left ++ more = frame right ++ more') : left = right ∧ more = more' := by
  rw [frame, frame, List.append_assoc, List.append_assoc] at same
  obtain ⟨header, body⟩ := List.append_inj same (by rw [LittleEndian.length_encode, LittleEndian.length_encode])
  have value : LittleEndian.value (LittleEndian.encode 4 left.length) = left.length := LittleEndian.value_encode short
  have lengths : left.length = right.length := by
    rw [← value, header]
    exact LittleEndian.value_encode short'
  exact List.append_inj body lengths

theorem frame_append_ne_nil (data more : List UInt8) : frame data ++ more ≠ [] := by
  have header := LittleEndian.length_encode 4 data.length
  refine List.ne_nil_of_length_pos ?_
  rw [frame, List.length_append, List.length_append]
  omega

/-- What is accepted starts with two frames within the limit. -/
theorem frames_of_accepted {plaintext : List UInt8} (accepts : receiverVerdict O ecc unread = .ok plaintext) :
    ∃ pem data rest, unread = frame pem ++ (frame data ++ rest) ∧ pem.length < 2 ^ 32 ∧ data.length < 2 ^ 32 := by
  unfold receiverVerdict at accepts
  split at accepts
  · cases accepts
  · rename_i pem later first
    obtain ⟨rfl, small⟩ := firstFrame_eq_ok.mp first
    unfold openedFrom at accepts
    cases imported : ECCCrypto.importPublicKey O pem with
    | error text =>
      simp only [imported, bind, Except.bind] at accepts
      cases accepts
    | ok peer =>
      cases derived : ECCCrypto.deriveSharedSecret O ecc peer with
      | error text =>
        simp only [imported, derived, bind, Except.bind] at accepts
        cases accepts
      | ok secret =>
        cases second : firstFrame later with
        | error text =>
          simp only [imported, derived, second, bind, Except.bind] at accepts
          cases accepts
        | ok found =>
          obtain ⟨data, rest⟩ := found
          obtain ⟨rfl, small'⟩ := firstFrame_eq_ok.mp second
          exact ⟨pem, data, rest, rfl, small.trans_lt dataLimit_lt, small'.trans_lt dataLimit_lt⟩

/-- Of all that a sender may have written when it is cut short, only the
whole of a complete transfer is accepted. -/
theorem complete_of_accepted {receiver : O.PrivateKey} {s plaintext : List UInt8}
    (small : (ECCCrypto.exportPublicKey O ecc).length < 2 ^ 32)
    (before : s <+: (senderPart O ecc iv message unread).1) (accepts : receiverVerdict O receiver s = .ok plaintext) :
    ∃ pem rest data, firstFrame unread = .ok (pem, rest) ∧ sealedFor O ecc iv message pem = .ok data ∧
      s = frame (ECCCrypto.exportPublicKey O ecc) ++ frame data ∧ senderPart O ecc iv message unread = (s, .ok ()) := by
  obtain ⟨pem', data', rest', rfl, short, short'⟩ := frames_of_accepted accepts
  obtain ⟨more, whole⟩ := before
  rw [List.append_assoc, List.append_assoc] at whole
  unfold senderPart at whole ⊢
  split at whole
  · exact absurd whole (frame_append_ne_nil _ _)
  rename_i pem rest first
  simp only [first]
  split at whole
  · rename_i text refused
    have whole : _ = frame (ECCCrypto.exportPublicKey O ecc) ++ [] := whole.trans (List.append_nil _).symm
    exact absurd (frame_append_inj short small whole).2 (frame_append_ne_nil _ _)
  · rename_i data seals
    obtain ⟨same, tail⟩ := frame_append_inj short small whole
    have tail : _ = frame data ++ [] := tail.trans (List.append_nil _).symm
    obtain ⟨same', last⟩ := frame_append_inj short' (length_sealedFor seals) tail
    obtain ⟨rfl, -⟩ := List.append_eq_nil_iff.mp last
    rw [List.append_nil, same, same']
    exact ⟨pem, rest, data, rfl, seals, rfl, rfl⟩

theorem Speaks.written_prefix {α : Type} {part : List UInt8 × Except String α} {r : Except String α} {e : Stream}
    (speaks : Speaks part r e) : e.written <+: part.1 := by
  rcases speaks with ⟨same, -⟩ | ⟨before, -⟩
  · exact same ▸ List.prefix_refl _
  · exact before

/-- Success is never the report of a program cut short. -/
theorem Speaks.of_ok {α : Type} {part : List UInt8 × Except String α} {a : α} {e : Stream}
    (speaks : Speaks part (.ok a) e) : part.2 = .ok a := by
  rcases speaks with ⟨-, same⟩ | ⟨-, -, no | no⟩
  · exact same.symm
  · cases no
  · cases no

end Programs

section Theorems
variable (O : OpenSsl)

/-- If what a sender has written makes a receiver accept a message, then
that is its key and the sealed message, and the sender can only end with
success and has nothing left to write. -/
def AcceptsOnlySent (sender receiver : O.PrivateKey) (iv : FixedBytes 12) (message : List UInt8) : Prop :=
  ∀ input x e, Relation.ReflTransGen (Turn stream)
      (SecureSender.performSecureTransfer O sender iv message, ⟨input, []⟩) (x, e) →
    ∀ y e' plaintext, Relation.ReflTransGen (Turn stream) (SecureReceiver.handleClient O receiver, ⟨e.written, []⟩) (y, e') →
      y.outcome = some (.ok plaintext) →
      Settles stream x e (fun r there => r = .ok () ∧ there.written = e.written) ∧
        ∃ pem rest data, firstFrame input = .ok (pem, rest) ∧ sealedFor O sender iv message pem = .ok data ∧
          e.written = frame (ECCCrypto.exportPublicKey O sender) ++ frame data

/-- The receiver prints a message only after a sender that succeeds, for
every peer and every cut of reads and writes on either side, and whatever
the ciphers do. -/
theorem accepts_only_sent (small : ∀ key, (O.writePubkey key).length < 2 ^ 32) (sender receiver : O.PrivateKey)
    (iv : FixedBytes 12) (message : List UInt8) : AcceptsOnlySent O sender receiver iv message := by
  intro input x e sent y e' plaintext received accepted
  have own : (ECCCrypto.exportPublicKey O sender).length < 2 ^ 32 := small _
  have sends : Meets stream (SecureSender.performSecureTransfer O sender iv message) ⟨input, []⟩ _ :=
    performSecureTransfer_wire own
  have before := sends.written_prefix (fun r e' speaks => speaks.written_prefix) sent
  have receives : Meets stream (SecureReceiver.handleClient O receiver) ⟨e.written, []⟩ _ :=
    handleClient_wire (small (O.publicKey receiver))
  have accepts : receiverVerdict O receiver e.written = .ok plaintext :=
    ((receives.reach received).outcome accepted).of_ok
  obtain ⟨pem, rest, data, first, seals, wrote, part⟩ := complete_of_accepted own before accepts
  refine ⟨⟨turns_finite .., fun x' there run => ?_⟩, pem, rest, data, first, seals, wrote⟩
  rcases (sends.reach sent).run run with going | ⟨r, ended, speaks⟩
  · exact Or.inl going
  · refine Or.inr ⟨r, ended, ?_⟩
    have longer : e.written <+: there.written := written_prefix run
    rw [part] at speaks
    rcases speaks with ⟨same, result⟩ | ⟨shorter, cut, -⟩
    · exact ⟨result, same⟩
    · exact absurd (shorter.eq_of_length_le longer.length_le) cut

end Theorems

theorem accepts_only_sent_two_bytes :
    AcceptsOnlySent (sampleOpenSsl [104, 105]) (5 : UInt8) (9 : UInt8) sampleIv [104, 105] :=
  accepts_only_sent (sampleOpenSsl [104, 105]) (fun _ => show 1 < 2 ^ 32 by decide) _ _ _ _

end SecureExchange
