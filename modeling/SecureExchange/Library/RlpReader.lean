import SecureExchange.Library.RlpCanonical

namespace Rlp

/-- A way to write an item of a list and to read it back, for the values
that fit it. -/
structure Codec (α : Type) where
  encode : α → List UInt8
  decode : List UInt8 → Except DecoderError α
  Fits : α → Prop
  delimited : ∀ {a}, Fits a → SelfDelimiting (encode a)
  decode_encode : ∀ {a}, Fits a → decode (encode a) = .ok a
  encode_decode : ∀ {bytes info a}, payloadInfo bytes = .ok info → decode (bytes.take info.size) = .ok a →
    Fits a ∧ bytes.take info.size = encode a

def byteString : Codec (List UInt8) where
  encode := encodeValue
  decode := decodeValue
  Fits bytes := bytes.length < 256 ^ 8
  delimited := encodeValue_selfDelimiting
  decode_encode := decodeValue_encodeValue
  encode_decode := decodeValue_inv

def integer : Codec UInt64 where
  encode := encodeU64
  decode := decodeU64
  Fits _ := True
  delimited _ := (encodeU64_short _).1
  decode_encode _ := decodeU64_encodeU64 _
  encode_decode found read := ⟨trivial, decodeU64_inv found read⟩

/-- An item with this index has been read, and these bytes stand behind it. -/
def Standing (bytes : List UInt8) (cache : Option OffsetCache) (index : Nat) (rest : List UInt8) : Prop :=
  isList bytes = true ∧ ∃ front item, SelfDelimiting item ∧ bytes = front ++ (item ++ rest) ∧
    cache = some ⟨index, front.length⟩

section Reading
variable {α : Type} {bytes rest : List UInt8} {cache cache' : Option OffsetCache} {index : Nat}

/-- The item at the front of some bytes is all that is read of them. -/
theorem Codec.item_iff (c : Codec α) {a : α} :
    (∃ info, payloadInfo bytes = .ok info ∧ c.decode (bytes.take info.size) = .ok a) ↔
      c.Fits a ∧ ∃ rest, bytes = c.encode a ++ rest := by
  constructor
  · rintro ⟨info, found, read⟩
    obtain ⟨fits, item⟩ := c.encode_decode found read
    exact ⟨fits, bytes.drop info.size, by rw [← item, List.take_append_drop]⟩
  · rintro ⟨fits, rest, rfl⟩
    obtain ⟨info, found, size⟩ := c.delimited fits rest
    exact ⟨info, found, by rw [size, List.take_left, c.decode_encode fits]⟩

/-- A value is read where its item is found. -/
theorem Codec.valAt_iff (c : Codec α) {front : List UInt8} {a : α} {next : Option OffsetCache}
    (item : itemAt bytes index cache = (do
      let found ← payloadInfo front
      return (front.take found.size, next))) :
    valAt c.decode bytes index cache = .ok (a, cache') ↔
      next = cache' ∧ c.Fits a ∧ ∃ rest, front = c.encode a ++ rest := by
  have unfolded : valAt c.decode bytes index cache = (do
      let found ← payloadInfo front
      let value ← c.decode (front.take found.size)
      return (value, next)) := by
    show (itemAt bytes index cache >>= _) = _
    rw [item]
    cases payloadInfo front <;> rfl
  rw [unfolded, ← c.item_iff]
  constructor
  · intro read
    cases found : payloadInfo front with
    | error e =>
      rw [found] at read
      cases read
    | ok info =>
      cases value : c.decode (front.take info.size) with
      | error e =>
        simp only [found, value, Bind.bind, Except.bind] at read
        cases read
      | ok a' =>
        simp only [found, value, Bind.bind, Except.bind, pure, Except.pure] at read
        cases read
        exact ⟨rfl, info, rfl, value⟩
  · rintro ⟨rfl, info, found, value⟩
    simp only [found, value, Bind.bind, Except.bind, pure, Except.pure]

/-- The search goes on behind the item that was read last. -/
theorem itemAt_next (standing : Standing bytes cache index rest) :
    ∃ offset, (∀ item tail, SelfDelimiting item → rest = item ++ tail →
        Standing bytes (some ⟨index + 1, offset⟩) (index + 1) tail) ∧
      itemAt bytes (index + 1) cache = (do
        let found ← payloadInfo rest
        return (rest.take found.size, some ⟨index + 1, offset⟩)) := by
  obtain ⟨list, front, item, delimited, shape, rfl⟩ := standing
  refine ⟨(front ++ item).length, fun next tail after split => ?_, ?_⟩
  · exact ⟨list, front ++ item, next, after, by rw [shape, split, List.append_assoc], rfl⟩
  · have skip : consumeItems (item ++ rest) 1 = .ok (rest, item.length) := consumeItems_one delimited rest
    have behind : consume bytes front.length = .ok (item ++ rest) := by rw [shape, consume_append]
    simp only [itemAt, list, if_pos, searchFrom, Nat.le_succ, behind, Nat.add_sub_cancel_left, skip,
      List.length_append, Bind.bind, Except.bind, pure, Except.pure]

theorem Standing.read {c : Codec α} {a : α} (standing : Standing bytes cache index (c.encode a ++ rest))
    (fits : c.Fits a) :
    ∃ cache', valAt c.decode bytes (index + 1) cache = .ok (a, cache') ∧ Standing bytes cache' (index + 1) rest := by
  obtain ⟨offset, further, item⟩ := itemAt_next standing
  exact ⟨_, (c.valAt_iff item).mpr ⟨rfl, fits, rest, rfl⟩, further _ _ (c.delimited fits) rfl⟩

theorem Standing.inv {c : Codec α} {a : α} (standing : Standing bytes cache index rest)
    (read : valAt c.decode bytes (index + 1) cache = .ok (a, cache')) :
    c.Fits a ∧ ∃ tail, rest = c.encode a ++ tail ∧ Standing bytes cache' (index + 1) tail := by
  obtain ⟨offset, further, item⟩ := itemAt_next standing
  obtain ⟨rfl, fits, tail, split⟩ := (c.valAt_iff item).mp read
  exact ⟨fits, tail, split, further _ _ (c.delimited fits) split⟩

/-- The first item has to lie in the payload that the header announces. -/
theorem itemAt_first {len : Nat} (bound : len < 256 ^ 8) (inside : len ≤ rest.length) :
    itemAt (lengthHeader 0xc0 0xf7 len ++ rest) 0 none = (do
      let found ← payloadInfo (rest.take len)
      return ((rest.take len).take found.size, some ⟨0, (lengthHeader 0xc0 0xf7 len).length⟩)) := by
  simp only [itemAt, isList_listHeader bound, if_pos, searchFrom, consumeListPayload,
    payloadInfo_listHeader bound inside, List.drop_left, consumeItems, Bind.bind, Except.bind, pure, Except.pure, Nat.add_zero]

theorem first_read {c : Codec α} {a : α} {len : Nat} (fits : c.Fits a) (bound : len < 256 ^ 8)
    (first : (c.encode a).length ≤ len) (inside : len ≤ (c.encode a ++ rest).length) :
    ∃ cache', valAt c.decode (lengthHeader 0xc0 0xf7 len ++ (c.encode a ++ rest)) 0 none = .ok (a, cache') ∧
      Standing (lengthHeader 0xc0 0xf7 len ++ (c.encode a ++ rest)) cache' 0 rest := by
  refine ⟨_, (c.valAt_iff (itemAt_first bound inside)).mpr ⟨rfl, fits, rest.take (len - (c.encode a).length), ?_⟩, ?_⟩
  · rw [List.take_append, List.take_of_length_le first]
  · exact ⟨isList_listHeader bound _, _, _, c.delimited fits, rfl, rfl⟩

theorem first_found {decode : List UInt8 → Except DecoderError α} {a : α}
    (read : valAt decode bytes 0 none = .ok (a, cache')) :
    ∃ info, isList bytes = true ∧ payloadInfo bytes = .ok info := by
  cases list : isList bytes with
  | false =>
    simp only [valAt, itemAt, list, Bind.bind, StateT.bind, Except.bind] at read
    cases read
  | true =>
    cases found : payloadInfo bytes with
    | error e =>
      simp only [valAt, itemAt, list, if_pos, searchFrom, consumeListPayload, found, Bind.bind, StateT.bind,
        Except.bind] at read
      cases read
    | ok info => exact ⟨info, rfl, rfl⟩

/-- A list is read behind any header that announces at least the first item
and at most the bytes there are. -/
theorem first_inv {c : Codec α} {a : α} (read : valAt c.decode bytes 0 none = .ok (a, cache')) :
    c.Fits a ∧ ∃ len tail, len < 256 ^ 8 ∧ (c.encode a).length ≤ len ∧ len ≤ (c.encode a ++ tail).length ∧
      bytes = lengthHeader 0xc0 0xf7 len ++ (c.encode a ++ tail) ∧ Standing bytes cache' 0 tail := by
  obtain ⟨info, list, found⟩ := first_found read
  obtain ⟨bound, rest, rfl, inside⟩ := listHeader_inv list found
  obtain ⟨rfl, fits, tail, front⟩ := (c.valAt_iff (itemAt_first bound inside)).mp read
  have first : (c.encode a).length ≤ info.valueLen := by
    have length := congrArg List.length front
    rw [List.length_take_of_le inside, List.length_append] at length
    omega
  have split : rest = c.encode a ++ (tail ++ rest.drop info.valueLen) := by
    rw [← List.append_assoc, ← front, List.take_append_drop]
  rw [split] at inside list ⊢
  exact ⟨fits, _, _, bound, first, inside, rfl, list, _, _, c.delimited fits, rfl, rfl⟩

theorem Reader.bind_ok {β : Type} {x : Reader α} {f : α → Reader β} {a : α} (first : x cache = .ok (a, cache')) :
    (x >>= f) cache = f a cache' := by
  simp only [Bind.bind, StateT.bind, Except.bind, first]

/-- A reader goes on with what its first part has read. -/
theorem Reader.bind_inv {β : Type} {x : Reader α} {f : α → Reader β} {b : β} {last : Option OffsetCache}
    (result : (x >>= f) cache = .ok (b, last)) :
    ∃ a between, x cache = .ok (a, between) ∧ f a between = .ok (b, last) := by
  cases first : x cache with
  | error e =>
    simp only [Bind.bind, StateT.bind, Except.bind, first] at result
    cases result
  | ok pair =>
    simp only [Bind.bind, StateT.bind, Except.bind, first] at result
    exact ⟨pair.1, pair.2, rfl, result⟩

end Reading

/-- The list at the front ends where the bytes do, and holds no item past
the counted ones. -/
def Exact (count : Nat) (bytes : List UInt8) : Prop :=
  ∃ info, payloadInfo bytes = .ok info ∧ info.size = bytes.length ∧
    ∃ consumed, consumeItems (bytes.drop info.headerLen) count = .ok ([], consumed)

/-- Items behind a header are written so exactly when every byte is
accounted for. -/
theorem encodeList_iff_exact {items : List (List UInt8)} {len : Nat} {trailing : List UInt8}
    (delimited : ∀ item ∈ items, SelfDelimiting item) (bound : len < 256 ^ 8)
    (inside : len ≤ (items.flatten ++ trailing).length) (small : items.flatten.length < 256 ^ 8) :
    encodeList items = lengthHeader 0xc0 0xf7 len ++ (items.flatten ++ trailing) ↔
      Exact items.length (lengthHeader 0xc0 0xf7 len ++ (items.flatten ++ trailing)) := by
  have found := payloadInfo_listHeader bound inside
  have consumed := consumeItems_flatten delimited trailing
  constructor
  · intro same
    have other := payloadInfo_listHeader small (Nat.le_refl items.flatten.length)
    rw [← encodeList, same, found] at other
    obtain rfl : len = items.flatten.length := congrArg PayloadInfo.valueLen (Except.ok.inj other)
    obtain rfl : trailing = [] := List.append_cancel_left
      ((List.append_cancel_left same).symm.trans (List.append_nil items.flatten).symm)
    refine ⟨_, found, ?_, _, by rw [List.drop_left]; exact consumed⟩
    rw [PayloadInfo.size, List.append_nil, List.length_append]
  · rintro ⟨info, header, whole, used, ends⟩
    rw [found] at header
    cases header
    rw [List.drop_left, consumed] at ends
    obtain rfl : trailing = [] := congrArg Prod.fst (Except.ok.inj ends)
    rw [PayloadInfo.size, List.append_nil, List.length_append] at whole
    obtain rfl : len = items.flatten.length := Nat.add_left_cancel whole
    rw [encodeList, List.append_nil]

end Rlp
