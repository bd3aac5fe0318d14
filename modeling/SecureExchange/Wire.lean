import SecureExchange.CreditHistory
import SecureExchange.Sample

namespace SecureExchange
namespace SignedTransaction

theorem hash_ne {C : Primitives} {left right : SignedTransaction} (free : CollisionFree C [left, right])
    (different : left ≠ right) : left.hash C ≠ right.hash C := fun same =>
  different (free.eq_of_hash (List.mem_cons_self ..) (List.mem_cons_of_mem _ (List.mem_singleton_self _)) same)

/-- The wire format loses nothing: decoding undoes encoding, and distinct
transactions have distinct encodings and, short of a collision, hashes. -/
theorem wire_roundTrip (C : Primitives) :
    (∀ tx : SignedTransaction, fromRlpBytes tx.toRlpBytes = .ok tx) ∧ Function.Injective toRlpBytes ∧
      ∀ left right : SignedTransaction, CollisionFree C [left, right] → left ≠ right →
        left.hash C ≠ right.hash C :=
  ⟨fromRlpBytes_encoded, fun _ _ => toRlpBytes_inj, fun _ _ => hash_ne⟩

theorem wire_roundTrip_samplePayment :
    fromRlpBytes (samplePayment 0 0xffffffffffffffff).toRlpBytes = .ok (samplePayment 0 0xffffffffffffffff) ∧
      (samplePayment 0 0).hash samplePrimitives ≠ (samplePayment 128 0).hash samplePrimitives :=
  ⟨(wire_roundTrip samplePrimitives).1 _,
    (wire_roundTrip samplePrimitives).2.2 _ _ (by decide +kernel) (by decide +kernel)⟩

theorem vecToArray_inv {n : Nat} {bytes : List UInt8} {array : FixedBytes n}
    (read : vecToArray n bytes = .ok array) : array.bytes = bytes := by
  unfold vecToArray at read
  split at read
  · rename_i found shape
    cases read
    unfold FixedBytes.ofList? at shape
    split at shape
    · cases shape
      rfl
    · cases shape
  · cases read

theorem lift_inv {α : Type} {x : Except Rlp.DecoderError α} {a : α} {cache cache' : Option Rlp.OffsetCache}
    (read : (x : Rlp.Reader α) cache = .ok (a, cache')) : x = .ok a := by
  cases x with
  | error e => cases read
  | ok b =>
    cases read
    rfl

/-- Everything that a successful decoding has read: the items one after
the other behind a list header. -/
theorem fromRlpBytes_inv {data : List UInt8} {tx : SignedTransaction} (read : fromRlpBytes data = .ok tx) :
    ∃ len trailing, len < 256 ^ 8 ∧ 21 ≤ len ∧ len ≤ (tx.rlpItems.flatten ++ trailing).length ∧
      data = Rlp.lengthHeader 0xc0 0xf7 len ++ (tx.rlpItems.flatten ++ trailing) := by
  have decoded : ∃ last, decode data none = .ok (tx, last) := by
    unfold fromRlpBytes StateT.run' at read
    cases result : decode data none with
    | error e =>
      rw [result] at read
      cases read
    | ok pair =>
      rw [result] at read
      cases read
      exact ⟨pair.2, rfl⟩
  obtain ⟨last, read⟩ := decoded
  obtain ⟨fromBytes, c0, r0, read⟩ := Rlp.Reader.bind_inv read
  obtain ⟨toBytes, c1, r1, read⟩ := Rlp.Reader.bind_inv read
  obtain ⟨amount, c2, r2, read⟩ := Rlp.Reader.bind_inv read
  obtain ⟨nonce, c3, r3, read⟩ := Rlp.Reader.bind_inv read
  obtain ⟨timestamp, c4, r4, read⟩ := Rlp.Reader.bind_inv read
  obtain ⟨pubkeyBytes, c5, r5, read⟩ := Rlp.Reader.bind_inv read
  obtain ⟨sigBytes, c6, r6, read⟩ := Rlp.Reader.bind_inv read
  obtain ⟨fromAddr, _, from_, read⟩ := Rlp.Reader.bind_inv read
  obtain ⟨toAddr, _, to_, read⟩ := Rlp.Reader.bind_inv read
  obtain ⟨pubkey, _, pubkey_, read⟩ := Rlp.Reader.bind_inv read
  obtain ⟨signature, _, signature_, read⟩ := Rlp.Reader.bind_inv read
  cases read
  rw [← vecToArray_inv (lift_inv from_)] at r0
  rw [← vecToArray_inv (lift_inv to_)] at r1
  rw [← vecToArray_inv (lift_inv pubkey_)] at r5
  rw [← vecToArray_inv (lift_inv signature_)] at r6
  obtain ⟨_, len, t0, bound, first, inside, shape, s0⟩ := Rlp.first_inv (c := Rlp.byteString) r0
  obtain ⟨_, t1, rfl, s1⟩ := s0.inv (c := Rlp.byteString) r1
  obtain ⟨_, t2, rfl, s2⟩ := s1.inv (c := Rlp.integer) r2
  obtain ⟨_, t3, rfl, s3⟩ := s2.inv (c := Rlp.integer) r3
  obtain ⟨_, t4, rfl, s4⟩ := s3.inv (c := Rlp.integer) r4
  obtain ⟨_, t5, rfl, s5⟩ := s4.inv (c := Rlp.byteString) r5
  obtain ⟨_, t6, rfl, _⟩ := s5.inv (c := Rlp.byteString) r6
  have whole := rlpItems_append ⟨fromAddr, toAddr, amount, nonce, timestamp, pubkey, signature⟩ t6
  refine ⟨len, t6, bound, (encodeValue_address_length fromAddr).symm.trans_le first, ?_, ?_⟩
  · rw [whole]
    exact inside
  · rw [whole]
    exact shape

/-- What the decoder accepts: the items of a transaction behind a header
that announces at least the first of them, and anything after them. -/
theorem fromRlpBytes_iff {data : List UInt8} {tx : SignedTransaction} : fromRlpBytes data = .ok tx ↔
    ∃ len trailing, len < 256 ^ 8 ∧ 21 ≤ len ∧ len ≤ (tx.rlpItems.flatten ++ trailing).length ∧
      data = Rlp.lengthHeader 0xc0 0xf7 len ++ (tx.rlpItems.flatten ++ trailing) := by
  constructor
  · exact fromRlpBytes_inv
  · rintro ⟨len, trailing, bound, first, inside, rfl⟩
    exact tx.fromRlpBytes_behind bound first inside

/-- A decoded byte string is the encoding of its transaction exactly when
it ends with its list, and the list with its seventh item. -/
theorem toRlpBytes_decoded_iff {data : List UInt8} {tx : SignedTransaction} (read : fromRlpBytes data = .ok tx) :
    tx.toRlpBytes = data ↔ Rlp.Exact 7 data := by
  obtain ⟨len, trailing, bound, _, inside, rfl⟩ := fromRlpBytes_inv read
  exact Rlp.encodeList_iff_exact (fun item member => (tx.rlpItems_short item member).1) bound inside tx.rlpItems_flatten_lt

theorem toRlpBytes_decoded_iff_samplePayment :
    (samplePayment 30 0).toRlpBytes = (samplePayment 30 0).toRlpBytes ↔ Rlp.Exact 7 (samplePayment 30 0).toRlpBytes :=
  toRlpBytes_decoded_iff (fromRlpBytes_encoded _)

/-- A byte behind the list, an eighth item in it and a header that announces
less than the seven items are all let through. -/
theorem samplePayment_padded :
    (fromRlpBytes ((samplePayment 30 0).toRlpBytes ++ [0]) = .ok (samplePayment 30 0) ∧
        (samplePayment 30 0).toRlpBytes ≠ (samplePayment 30 0).toRlpBytes ++ [0]) ∧
      (fromRlpBytes (Rlp.encodeList ((samplePayment 30 0).rlpItems ++ [[0]])) = .ok (samplePayment 30 0) ∧
        (samplePayment 30 0).toRlpBytes ≠ Rlp.encodeList ((samplePayment 30 0).rlpItems ++ [[0]])) ∧
      fromRlpBytes ([0xf8, 0x38] ++ (samplePayment 30 0).rlpItems.flatten) = .ok (samplePayment 30 0) ∧
        (samplePayment 30 0).toRlpBytes ≠ [0xf8, 0x38] ++ (samplePayment 30 0).rlpItems.flatten := by
  refine ⟨⟨fromRlpBytes_append _ [0], ?_⟩, ⟨by decide +kernel, by decide +kernel⟩, by decide +kernel, by decide +kernel⟩
  intro same
  have lengths := congrArg List.length same
  simp at lengths

end SignedTransaction
end SecureExchange
