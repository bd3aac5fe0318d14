import SecureExchange.Library.RlpRoundTrip

namespace Rlp

theorem ofNat_eq_of_toNat {b : UInt8} {n : Nat} (value : b.toNat = n) : UInt8.ofNat n = b := by
  rw [← value, UInt8.ofNat_toNat]

/-- A long header that is accepted is the one that its length is written with. -/
theorem longPayloadInfo_inv {lenOfLen : Nat} {rest : List UInt8} {info : PayloadInfo}
    (read : longPayloadInfo lenOfLen rest = .ok info) :
    info.headerLen = 1 + lenOfLen ∧ 55 < info.valueLen ∧ rest.take lenOfLen = BigEndian.encode info.valueLen ∧
      (BigEndian.encode info.valueLen).length = lenOfLen := by
  cases rest with
  | nil => cases read
  | cons first tail =>
    simp only [longPayloadInfo] at read
    split at read
    · cases read
    rename_i nonzero
    split at read
    · cases read
    rename_i enough
    split at read
    · cases read
    rename_i large
    cases read
    have plain : BigEndian.encode (BigEndian.value ((first :: tail).take lenOfLen)) =
        (first :: tail).take lenOfLen := by
      refine BigEndian.encode_value fun b other shape => ?_
      cases lenOfLen with
      | zero => cases shape
      | succ k =>
        rw [List.take_succ_cons] at shape
        rw [← (List.cons.inj shape).1]
        exact nonzero
    refine ⟨rfl, Nat.lt_of_not_le large, plain.symm, ?_⟩
    rw [plain, List.length_take]
    omega

theorem shortHeader_inv {first : UInt8} (short long : Nat) (above : short ≤ first.toNat)
    (below : first.toNat ≤ short + 55) : lengthHeader short long (first.toNat - short) = [first] := by
  rw [lengthHeader, if_pos (by omega), ofNat_eq_of_toNat (b := first) (by omega)]

theorem longHeader_inv {first : UInt8} {rest : List UInt8} {long : Nat} {info : PayloadInfo} (short : Nat)
    (read : longPayloadInfo (first.toNat - long) rest = .ok info) (above : long < first.toNat)
    (below : first.toNat ≤ long + 8) :
    (first :: rest).take info.headerLen = lengthHeader short long info.valueLen ∧
      (lengthHeader short long info.valueLen).length = info.headerLen ∧ info.valueLen < 256 ^ 8 := by
  obtain ⟨headerLen, large, front, width⟩ := longPayloadInfo_inv read
  have header : lengthHeader short long info.valueLen = first :: BigEndian.encode info.valueLen := by
    rw [lengthHeader, if_neg (Nat.not_le.mpr large), width, ofNat_eq_of_toNat (b := first) (by omega)]
  have bound := BigEndian.value_lt (BigEndian.encode info.valueLen)
  rw [BigEndian.value_encode, width] at bound
  refine ⟨?_, ?_, bound.trans_le (Nat.pow_le_pow_right (by omega) (by omega))⟩
  · rw [header, headerLen, Nat.add_comm, List.take_succ_cons, front]
  · rw [header, List.length_cons, width, headerLen, Nat.add_comm]

/-- The three kinds of items, by the header in front of the payload. -/
inductive Header (bytes : List UInt8) (info : PayloadInfo) : Prop
  | byte (b : UInt8) (rest : List UInt8) (shape : bytes = b :: rest) (small : b < 0x80)
      (empty : info = ⟨0, 1⟩)
  | string (front : bytes.take info.headerLen = lengthHeader 0x80 0xb7 info.valueLen)
      (width : (lengthHeader 0x80 0xb7 info.valueLen).length = info.headerLen) (bound : info.valueLen < 256 ^ 8)
      (data : isList bytes = false)
  | list (front : bytes.take info.headerLen = lengthHeader 0xc0 0xf7 info.valueLen)
      (width : (lengthHeader 0xc0 0xf7 info.valueLen).length = info.headerLen) (bound : info.valueLen < 256 ^ 8)
      (list : isList bytes = true)

/-- Headers that are accepted are canonical. -/
theorem payloadInfoFrom_inv {bytes : List UInt8} {info : PayloadInfo} (read : payloadInfoFrom bytes = .ok info) :
    Header bytes info := by
  cases bytes with
  | nil => cases read
  | cons first rest =>
    have size := first.toNat_lt
    simp only [payloadInfoFrom] at read
    split at read
    · rename_i small
      cases read
      refine .byte first rest rfl (UInt8.lt_iff_toNat_lt.mpr ?_) rfl
      show first.toNat < 128
      omega
    split at read
    · rename_i above below
      cases read
      have front := shortHeader_inv 0x80 0xb7 (show 0x80 ≤ first.toNat by omega) (by omega)
      refine .string (by rw [front]; rfl) (by rw [front]; rfl) ?_ (decide_eq_false (by omega))
      show first.toNat - 0x80 < 256 ^ 8
      omega
    split at read
    · obtain ⟨front, width, bound⟩ := longHeader_inv 0x80 read (by omega) (by omega)
      exact .string front width bound (decide_eq_false (by omega))
    split at read
    · cases read
      have front := shortHeader_inv 0xc0 0xf7 (show 0xc0 ≤ first.toNat by omega) (by omega)
      refine .list (by rw [front]; rfl) (by rw [front]; rfl) ?_ (decide_eq_true (by omega))
      show first.toNat - 0xc0 < 256 ^ 8
      omega
    · obtain ⟨front, width, bound⟩ := longHeader_inv 0xc0 read (by omega) (by omega)
      exact .list front width bound (decide_eq_true (by omega))

theorem payloadInfo_inv {bytes : List UInt8} {info : PayloadInfo} (read : payloadInfo bytes = .ok info) :
    payloadInfoFrom bytes = .ok info ∧ info.size ≤ bytes.length := by
  unfold payloadInfo at read
  split at read
  · cases read
  · rename_i found header
    split at read
    · rename_i fits
      cases read
      exact ⟨header, fits⟩
    · cases read

theorem take_size {bytes : List UInt8} {info : PayloadInfo} :
    bytes.take info.size = bytes.take info.headerLen ++ (bytes.drop info.headerLen).take info.valueLen := by
  rw [PayloadInfo.size, List.take_add]

/-- An accepted list begins with the header that its payload is written with. -/
theorem listHeader_inv {bytes : List UInt8} {info : PayloadInfo} (list : isList bytes = true)
    (found : payloadInfo bytes = .ok info) :
    info.valueLen < 256 ^ 8 ∧
      ∃ rest, bytes = lengthHeader 0xc0 0xf7 info.valueLen ++ rest ∧ info.valueLen ≤ rest.length := by
  obtain ⟨header, inside⟩ := payloadInfo_inv found
  cases payloadInfoFrom_inv header with
  | byte b rest shape small _ =>
    have above : 0xc0 ≤ b.toNat := by
      rw [shape] at list
      exact of_decide_eq_true list
    have below := UInt8.lt_iff_toNat_lt.mp small
    have bound : (0x80 : UInt8).toNat = 0x80 := rfl
    omega
  | string _ _ _ data =>
    rw [list] at data
    cases data
  | list front width bound _ =>
    refine ⟨bound, bytes.drop info.headerLen, by rw [← front, List.take_append_drop], ?_⟩
    rw [PayloadInfo.size] at inside
    rw [List.length_drop]
    omega

/-- A list is not read as a string. -/
theorem decodeValue_list {bytes value : List UInt8} (list : isList bytes = true) : decodeValue bytes ≠ .ok value := by
  cases bytes with
  | nil => cases list
  | cons first rest =>
    have above : 0xc0 ≤ first.toNat := of_decide_eq_true list
    simp only [decodeValue]
    rw [if_neg (by omega), if_neg (by omega), if_neg (by omega)]
    exact fun read => by cases read

theorem isList_take {bytes : List UInt8} {n : Nat} (positive : 0 < n) : isList (bytes.take n) = isList bytes := by
  cases bytes with
  | nil => rw [List.take_nil]
  | cons first rest =>
    obtain ⟨k, rfl⟩ := Nat.exists_eq_succ_of_ne_zero positive.ne'
    rfl

theorem lengthHeader_pos (short long len : Nat) : 0 < (lengthHeader short long len).length := by
  unfold lengthHeader
  split <;> simp

/-- A short header is refused in front of a byte that stands for itself. -/
theorem decodeValue_single {b : UInt8} {value : List UInt8} (small : b < 0x80) :
    decodeValue (lengthHeader 0x80 0xb7 1 ++ [b]) ≠ .ok value := by
  have header : lengthHeader 0x80 0xb7 1 = [0x81] := rfl
  have first : (0x81 : UInt8).toNat = 0x81 := rfl
  rw [header, List.singleton_append, decodeValue, first]
  simp [small]

theorem encodeValue_plain {bytes : List UInt8} (plain : ∀ b, bytes = [b] → ¬ b < 0x80) :
    encodeValue bytes = lengthHeader 0x80 0xb7 bytes.length ++ bytes := by
  rcases valueHeader_cases bytes with ⟨b, single, small, _⟩ | ⟨_, header⟩
  · exact absurd small (plain b single)
  · rw [encodeValue, header]

/-- A string that is read out of an accepted item is written back as that item. -/
theorem decodeValue_inv {bytes value : List UInt8} {info : PayloadInfo} (found : payloadInfo bytes = .ok info)
    (read : decodeValue (bytes.take info.size) = .ok value) :
    value.length < 256 ^ 8 ∧ bytes.take info.size = encodeValue value := by
  obtain ⟨header, fits⟩ := payloadInfo_inv found
  cases payloadInfoFrom_inv header with
  | byte b rest shape small empty =>
    have below : b.toNat ≤ 0x7f := Nat.le_of_lt_succ (UInt8.lt_iff_toNat_lt.mp small)
    rw [shape, empty] at read ⊢
    simp only [PayloadInfo.size, Nat.zero_add, List.take_succ_cons, List.take_zero, decodeValue,
      if_pos below] at read ⊢
    cases read
    exact ⟨show [b].length < 256 ^ 8 by simp, by rw [encodeValue, valueHeader, if_pos small, List.nil_append]⟩
  | string front width bound data =>
    let payload := (bytes.drop info.headerLen).take info.valueLen
    have length : payload.length = info.valueLen := by
      rw [List.length_take, List.length_drop]
      rw [PayloadInfo.size] at fits
      omega
    have item : bytes.take info.size = lengthHeader 0x80 0xb7 payload.length ++ payload := by
      rw [take_size, front, length]
    rw [item] at read ⊢
    rw [← length] at bound
    by_cases short : payload.length ≤ 55
    · have plain : ∀ b, payload = [b] → ¬ b < 0x80 := by
        intro b single small
        rw [single] at read
        exact decodeValue_single small read
      rw [decodeValue_short short plain] at read
      rw [← Except.ok.inj read]
      exact ⟨bound, (encodeValue_plain plain).symm⟩
    · have plain : ∀ b, payload = [b] → ¬ b < 0x80 := by
        intro b single _
        rw [single] at short
        exact absurd (show [b].length ≤ 55 by simp) short
      rw [decodeValue_long (Nat.lt_of_not_le short) bound] at read
      rw [← Except.ok.inj read]
      exact ⟨bound, (encodeValue_plain plain).symm⟩
  | list front width bound list =>
    have positive : 0 < info.size := by
      have header := lengthHeader_pos 0xc0 0xf7 info.valueLen
      rw [PayloadInfo.size]
      omega
    exact absurd read (decodeValue_list (by rw [isList_take positive, list]))

/-- An integer that is read is written back byte for byte. -/
theorem integerOf_inv {bytes : List UInt8} {n : UInt64} (read : integerOf bytes = .ok n) :
    BigEndian.encode n.toNat = bytes := by
  cases bytes with
  | nil =>
    cases read
    exact BigEndian.encode_eq_nil.mpr rfl
  | cons first rest =>
    simp only [integerOf] at read
    split at read
    · cases read
    rename_i narrow
    split at read
    · cases read
    rename_i nonzero
    cases read
    have bound := (BigEndian.value_lt (first :: rest)).trans_le
      (Nat.pow_le_pow_right (show 0 < 256 by omega) (Nat.le_of_not_lt narrow))
    rw [UInt64.toNat_ofNat_of_lt' bound]
    refine BigEndian.encode_value fun b tail shape => ?_
    rw [← (List.cons.inj shape).1]
    exact nonzero

theorem decodeU64_inv {bytes : List UInt8} {n : UInt64} {info : PayloadInfo} (found : payloadInfo bytes = .ok info)
    (read : decodeU64 (bytes.take info.size) = .ok n) : bytes.take info.size = encodeU64 n := by
  unfold decodeU64 at read
  split at read
  · cases read
  · rename_i value string
    rw [(decodeValue_inv found string).2, encodeU64, integerOf_inv read]

end Rlp
