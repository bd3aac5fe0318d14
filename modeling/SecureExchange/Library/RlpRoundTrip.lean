import SecureExchange.Library.Rlp

namespace Rlp

theorem longPayloadInfo_encode {len : Nat} (long : 55 < len) (rest : List UInt8) :
    longPayloadInfo (BigEndian.encode len).length (BigEndian.encode len ++ rest) =
      .ok ⟨1 + (BigEndian.encode len).length, len⟩ := by
  obtain ⟨first, tail, shape⟩ := List.exists_cons_of_ne_nil
    (BigEndian.encode_ne_nil (show 0 < len by omega))
  have nonzero := BigEndian.encode_head_ne_zero shape
  have read : BigEndian.value ((BigEndian.encode len ++ rest).take (BigEndian.encode len).length) = len := by
    rw [List.take_left' rfl, BigEndian.value_encode]
  rw [shape] at read ⊢
  simp only [List.cons_append] at read ⊢
  rw [longPayloadInfo, if_neg nonzero, if_neg (by simp), read, if_neg (by omega)]

theorem toNat_ofNat {n : Nat} (bound : n < 256) : (UInt8.ofNat n).toNat = n :=
  UInt8.toNat_ofNat_of_lt' bound

/-- The size field of a long header is between one and eight bytes wide. -/
theorem sizeLen_bounds {len : Nat} (long : 55 < len) (bound : len < 256 ^ 8) :
    0 < (BigEndian.encode len).length ∧ (BigEndian.encode len).length ≤ 8 :=
  ⟨List.length_pos_of_ne_nil (BigEndian.encode_ne_nil (by omega)), BigEndian.encode_length_le bound⟩

theorem payloadInfoFrom_listHeader {len : Nat} (bound : len < 256 ^ 8) (rest : List UInt8) :
    payloadInfoFrom (lengthHeader 0xc0 0xf7 len ++ rest) =
      .ok ⟨(lengthHeader 0xc0 0xf7 len).length, len⟩ := by
  unfold lengthHeader
  split
  · rename_i short
    simp only [List.cons_append, List.nil_append, payloadInfoFrom, List.length_singleton]
    rw [toNat_ofNat (by omega), if_neg (by omega), if_neg (by omega), if_neg (by omega),
      if_pos (by omega), Nat.add_sub_cancel_left]
  · rename_i long
    obtain ⟨positive, small⟩ := sizeLen_bounds (by omega) bound
    simp only [List.cons_append, payloadInfoFrom, List.length_cons]
    rw [toNat_ofNat (by omega), if_neg (by omega), if_neg (by omega), if_neg (by omega),
      if_neg (by omega), Nat.add_sub_cancel_left, longPayloadInfo_encode (by omega), Nat.add_comm]

theorem payloadInfoFrom_stringHeader {len : Nat} (bound : len < 256 ^ 8) (rest : List UInt8) :
    payloadInfoFrom (lengthHeader 0x80 0xb7 len ++ rest) =
      .ok ⟨(lengthHeader 0x80 0xb7 len).length, len⟩ := by
  unfold lengthHeader
  split
  · rename_i short
    simp only [List.cons_append, List.nil_append, payloadInfoFrom, List.length_singleton]
    rw [toNat_ofNat (by omega), if_neg (by omega), if_pos (by omega), Nat.add_sub_cancel_left]
  · rename_i long
    obtain ⟨positive, small⟩ := sizeLen_bounds (by omega) bound
    simp only [List.cons_append, payloadInfoFrom, List.length_cons]
    rw [toNat_ofNat (by omega), if_neg (by omega), if_neg (by omega), if_pos (by omega),
      Nat.add_sub_cancel_left, longPayloadInfo_encode (by omega), Nat.add_comm]

/-- A byte string is written either as one byte below 0x80 or behind the
header that its length alone determines. -/
theorem valueHeader_cases (bytes : List UInt8) :
    (∃ b, bytes = [b] ∧ b < 0x80 ∧ valueHeader bytes = []) ∨
      ((∀ b, bytes = [b] → ¬ b < 0x80) ∧ valueHeader bytes = lengthHeader 0x80 0xb7 bytes.length) := by
  match bytes with
  | [] => exact Or.inr ⟨by simp, rfl⟩
  | [b] =>
    by_cases small : b < 0x80
    · exact Or.inl ⟨b, rfl, small, by simp [valueHeader, small]⟩
    · refine Or.inr ⟨fun c same => by cases same; exact small, ?_⟩
      simp [valueHeader, small, lengthHeader]
  | b :: c :: tail => exact Or.inr ⟨by simp, rfl⟩

theorem valueHeader_length_le (bytes : List UInt8) (bound : bytes.length < 256 ^ 8) :
    (valueHeader bytes).length ≤ 9 := by
  rcases valueHeader_cases bytes with ⟨_, _, _, header⟩ | ⟨_, header⟩
  · simp [header]
  · rw [header, lengthHeader]
    split
    · simp
    · have small := (sizeLen_bounds (by omega) bound).2
      rw [List.length_cons]
      omega

theorem payloadInfoFrom_encodeValue {bytes : List UInt8} (bound : bytes.length < 256 ^ 8)
    (rest : List UInt8) :
    payloadInfoFrom (encodeValue bytes ++ rest) =
      .ok ⟨(valueHeader bytes).length, bytes.length⟩ := by
  rcases valueHeader_cases bytes with ⟨b, rfl, small, header⟩ | ⟨_, header⟩
  · have below : b.toNat ≤ 0x7f := by
      have := UInt8.lt_iff_toNat_lt.mp small
      simpa using Nat.le_of_lt_succ this
    rw [encodeValue, header]
    simp only [List.nil_append, List.cons_append, payloadInfoFrom, if_pos below,
      List.length_nil, List.length_singleton]
  · rw [encodeValue, header, List.append_assoc, payloadInfoFrom_stringHeader bound]

/-- Bytes that announce their own length whatever follows them. -/
def SelfDelimiting (item : List UInt8) : Prop :=
  ∀ rest, ∃ info, payloadInfo (item ++ rest) = .ok info ∧ info.size = item.length

theorem payloadInfo_of_from {bytes : List UInt8} {info : PayloadInfo}
    (header : payloadInfoFrom bytes = .ok info) (fits : info.size ≤ bytes.length) :
    payloadInfo bytes = .ok info := by
  simp only [payloadInfo, header, if_pos fits]

theorem encodeValue_selfDelimiting {bytes : List UInt8} (bound : bytes.length < 256 ^ 8) :
    SelfDelimiting (encodeValue bytes) := by
  intro rest
  have size : (⟨(valueHeader bytes).length, bytes.length⟩ : PayloadInfo).size =
      (encodeValue bytes).length := by simp [PayloadInfo.size, encodeValue]
  refine ⟨_, payloadInfo_of_from (payloadInfoFrom_encodeValue bound rest) ?_, size⟩
  rw [size, List.length_append]
  omega

theorem payloadInfo_listHeader {len : Nat} {rest : List UInt8} (bound : len < 256 ^ 8) (fits : len ≤ rest.length) :
    payloadInfo (lengthHeader 0xc0 0xf7 len ++ rest) = .ok ⟨(lengthHeader 0xc0 0xf7 len).length, len⟩ := by
  refine payloadInfo_of_from (payloadInfoFrom_listHeader bound rest) ?_
  simp only [PayloadInfo.size, List.length_append]
  omega

theorem isList_listHeader {len : Nat} (bound : len < 256 ^ 8) (rest : List UInt8) :
    isList (lengthHeader 0xc0 0xf7 len ++ rest) = true := by
  unfold lengthHeader
  split
  · rename_i short
    simp only [List.cons_append, isList, decide_eq_true_eq]
    rw [toNat_ofNat (by omega)]
    omega
  · rename_i long
    obtain ⟨_, small⟩ := sizeLen_bounds (by omega) bound
    simp only [List.cons_append, isList, decide_eq_true_eq]
    rw [toNat_ofNat (by omega)]
    omega

theorem consume_append (front rest : List UInt8) : consume (front ++ rest) front.length = .ok rest := by
  rw [consume, if_pos (by rw [List.length_append]; omega), List.drop_left]

theorem consumeItems_one {item : List UInt8} (delimited : SelfDelimiting item) (rest : List UInt8) :
    consumeItems (item ++ rest) 1 = .ok (rest, item.length) := by
  obtain ⟨info, found, size⟩ := delimited rest
  simp only [consumeItems, found, size, consume_append, Bind.bind, Except.bind, pure, Except.pure, Nat.add_zero]

/-- Skipping the items of a well-formed payload lands exactly behind them. -/
theorem consumeItems_flatten {items : List (List UInt8)} (delimited : ∀ item ∈ items, SelfDelimiting item)
    (trailing : List UInt8) :
    consumeItems (items.flatten ++ trailing) items.length = .ok (trailing, items.flatten.length) := by
  induction items with
  | nil => rfl
  | cons item rest ih =>
    obtain ⟨info, found, size⟩ := delimited item (List.mem_cons_self ..) (rest.flatten ++ trailing)
    have later := ih fun other member => delimited other (List.mem_cons_of_mem _ member)
    rw [List.flatten_cons, List.append_assoc, List.length_cons, List.length_append]
    simp only [consumeItems, found, size, consume_append, later, Bind.bind, Except.bind, pure, Except.pure]

/-- Where items end is fixed by the items themselves. -/
theorem flatten_inj {items items' : List (List UInt8)} (delimited : ∀ item ∈ items, SelfDelimiting item)
    (delimited' : ∀ item ∈ items', SelfDelimiting item) (count : items.length = items'.length)
    (same : items.flatten = items'.flatten) : items = items' := by
  induction items generalizing items' with
  | nil => exact (List.eq_nil_of_length_eq_zero count.symm).symm
  | cons item rest ih =>
    cases items' with
    | nil => cases count
    | cons item' rest' =>
      rw [List.flatten_cons, List.flatten_cons] at same
      obtain ⟨info, found, size⟩ := delimited item (List.mem_cons_self ..) rest.flatten
      obtain ⟨info', found', size'⟩ := delimited' item' (List.mem_cons_self ..) rest'.flatten
      rw [same, found'] at found
      cases found
      obtain ⟨rfl, tails⟩ := List.append_inj same (size.symm.trans size')
      rw [ih (fun other member => delimited other (List.mem_cons_of_mem _ member))
        (fun other member => delimited' other (List.mem_cons_of_mem _ member)) (Nat.succ.inj count) tails]

/-- The header of a list does not hide where its payload begins. -/
theorem encodeList_inj {items items' : List (List UInt8)} (delimited : ∀ item ∈ items, SelfDelimiting item)
    (delimited' : ∀ item ∈ items', SelfDelimiting item) (count : items.length = items'.length)
    (bound : items.flatten.length < 256 ^ 8) (bound' : items'.flatten.length < 256 ^ 8)
    (same : encodeList items = encodeList items') : items = items' := by
  unfold encodeList at same
  have found := payloadInfo_listHeader bound (Nat.le_refl items.flatten.length)
  rw [same, payloadInfo_listHeader bound' (Nat.le_refl _)] at found
  have headers := congrArg PayloadInfo.headerLen (Except.ok.inj found)
  exact flatten_inj delimited delimited' count (List.append_inj same headers.symm).2

theorem decodeValue_long {bytes : List UInt8} (long : 55 < bytes.length)
    (bound : bytes.length < 256 ^ 8) : decodeValue (lengthHeader 0x80 0xb7 bytes.length ++ bytes) = .ok bytes := by
  obtain ⟨positive, small⟩ := sizeLen_bounds long bound
  simp only [lengthHeader, if_neg (Nat.not_le.mpr long), List.cons_append, decodeValue]
  rw [toNat_ofNat (by omega), if_neg (by omega), if_neg (by omega), if_pos (by omega),
    Nat.add_sub_cancel_left, List.take_left, List.drop_left, BigEndian.value_encode,
    List.length_append, if_neg (by omega), if_neg (by omega), List.take_length]

theorem decodeValue_short {bytes : List UInt8} (short : bytes.length ≤ 55)
    (plain : ∀ b, bytes = [b] → ¬ b < 0x80) :
    decodeValue (lengthHeader 0x80 0xb7 bytes.length ++ bytes) = .ok bytes := by
  simp only [lengthHeader, if_pos short, List.cons_append, List.nil_append, decodeValue]
  rw [toNat_ofNat (by omega), if_neg (by omega), if_pos (by omega), Nat.add_sub_cancel_left,
    if_neg (by omega), List.take_length, if_neg]
  rintro ⟨single, b, head, small⟩
  obtain ⟨c, rfl⟩ := List.length_eq_one_iff.mp (show bytes.length = 1 by omega)
  cases head
  exact plain b rfl small

/-- Reading a written string gives the string back. -/
theorem decodeValue_encodeValue {bytes : List UInt8} (bound : bytes.length < 256 ^ 8) :
    decodeValue (encodeValue bytes) = .ok bytes := by
  rcases valueHeader_cases bytes with ⟨b, rfl, small, header⟩ | ⟨plain, header⟩
  · have below : b.toNat ≤ 0x7f := by
      have := UInt8.lt_iff_toNat_lt.mp small
      simpa using Nat.le_of_lt_succ this
    rw [encodeValue, header]
    simp only [List.nil_append, decodeValue, if_pos below]
  · rw [encodeValue, header]
    by_cases short : bytes.length ≤ 55
    · exact decodeValue_short short plain
    · exact decodeValue_long (by omega) bound

theorem encode_u64_length (n : UInt64) : (BigEndian.encode n.toNat).length ≤ 8 :=
  BigEndian.encode_length_le n.toNat_lt

theorem integerOf_encode (n : UInt64) : integerOf (BigEndian.encode n.toNat) = .ok n := by
  have width := encode_u64_length n
  cases shape : BigEndian.encode n.toNat with
  | nil =>
    have zero : n = 0 := UInt64.toNat_inj.mp (BigEndian.encode_eq_nil.mp shape)
    rw [zero]; rfl
  | cons first rest =>
    rw [shape] at width
    have read : BigEndian.value (first :: rest) = n.toNat := by rw [← shape, BigEndian.value_encode]
    simp only [integerOf, if_neg (Nat.not_lt.mpr width), if_neg (BigEndian.encode_head_ne_zero shape),
      read, UInt64.ofNat_toNat]

theorem decodeU64_encodeU64 (n : UInt64) : decodeU64 (encodeU64 n) = .ok n := by
  have small : (BigEndian.encode n.toNat).length < 256 ^ 8 := (encode_u64_length n).trans_lt (by decide)
  simp only [decodeU64, encodeU64, decodeValue_encodeValue small, integerOf_encode]

/-- The items that records of a few fixed-width fields are written with. -/
def Short (item : List UInt8) : Prop := SelfDelimiting item ∧ item.length ≤ 255

theorem encodeValue_short {bytes : List UInt8} (small : bytes.length ≤ 246) :
    Short (encodeValue bytes) := by
  have bound : bytes.length < 256 ^ 8 := by omega
  have header := valueHeader_length_le bytes bound
  refine ⟨encodeValue_selfDelimiting bound, ?_⟩
  rw [encodeValue, List.length_append]
  omega

theorem encodeU64_short (n : UInt64) : Short (encodeU64 n) := by
  have small := encode_u64_length n
  exact encodeValue_short (by omega)

theorem flatten_length_le {items : List (List UInt8)} (short : ∀ item ∈ items, Short item) :
    items.flatten.length ≤ 255 * items.length := by
  induction items with
  | nil => simp
  | cons item rest ih =>
    have here := (short item (List.mem_cons_self ..)).2
    have there := ih fun other member => short other (List.mem_cons_of_mem _ member)
    rw [List.flatten_cons, List.length_append, List.length_cons]
    omega

theorem encodeValue_inj {bytes bytes' : List UInt8} (bound : bytes.length < 256 ^ 8) (bound' : bytes'.length < 256 ^ 8)
    (same : encodeValue bytes = encodeValue bytes') : bytes = bytes' := by
  have read := decodeValue_encodeValue bound
  rw [same, decodeValue_encodeValue bound'] at read
  exact (Except.ok.inj read).symm

theorem encodeU64_inj {n n' : UInt64} (same : encodeU64 n = encodeU64 n') : n = n' := by
  have read := decodeU64_encodeU64 n
  rw [same, decodeU64_encodeU64] at read
  exact (Except.ok.inj read).symm

end Rlp
