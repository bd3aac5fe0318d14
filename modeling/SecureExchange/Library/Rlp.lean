import Mathlib.Data.List.Basic
import SecureExchange.Library.BigEndian

namespace Rlp

/-- The ways reading an RLP item can fail. -/
inductive DecoderError where
  | rlpIsTooBig
  | rlpIsTooShort
  | rlpExpectedToBeList
  | rlpExpectedToBeData
  | rlpDataLenWithZeroPrefix
  | rlpInvalidIndirection
  | rlpInconsistentLengthAndData
  | custom (message : String)
deriving DecidableEq, Repr

/-- The header of a string or list: one byte up to 55 payload bytes, and
beyond that the length of the length followed by the length itself. -/
def lengthHeader (short long len : Nat) : List UInt8 :=
  if len ≤ 55 then [UInt8.ofNat (short + len)]
  else UInt8.ofNat (long + (BigEndian.encode len).length) :: BigEndian.encode len

/-- The header a byte string is written behind; a single byte below 0x80
stands for itself. -/
def valueHeader : List UInt8 → List UInt8
  | [b] => if b < 0x80 then [] else [0x81]
  | bytes => lengthHeader 0x80 0xb7 bytes.length

def encodeValue (bytes : List UInt8) : List UInt8 :=
  valueHeader bytes ++ bytes

def encodeU64 (n : UInt64) : List UInt8 :=
  encodeValue (BigEndian.encode n.toNat)

/-- A list of already encoded items. -/
def encodeList (items : List (List UInt8)) : List UInt8 :=
  lengthHeader 0xc0 0xf7 items.flatten.length ++ items.flatten

/-- Where the item at the front of some bytes keeps its payload. -/
structure PayloadInfo where
  headerLen : Nat
  valueLen : Nat
deriving DecidableEq, Repr

def PayloadInfo.size (info : PayloadInfo) : Nat := info.headerLen + info.valueLen

/-- The long form of a header: `rest` follows the prefix byte. The length
may not start with a zero byte and may not fit the short form. -/
def longPayloadInfo (lenOfLen : Nat) (rest : List UInt8) : Except DecoderError PayloadInfo :=
  match rest with
  | [] => .error .rlpIsTooShort
  | first :: _ =>
    if first = 0 then .error .rlpDataLenWithZeroPrefix
    else if rest.length < lenOfLen then .error .rlpIsTooShort
    else if BigEndian.value (rest.take lenOfLen) ≤ 55 then .error .rlpInvalidIndirection
    else .ok ⟨1 + lenOfLen, BigEndian.value (rest.take lenOfLen)⟩

def payloadInfoFrom : List UInt8 → Except DecoderError PayloadInfo
  | [] => .error .rlpIsTooShort
  | first :: rest =>
    let l := first.toNat
    if l ≤ 0x7f then .ok ⟨0, 1⟩
    else if l ≤ 0xb7 then .ok ⟨1, l - 0x80⟩
    else if l ≤ 0xbf then longPayloadInfo (l - 0xb7) rest
    else if l ≤ 0xf7 then .ok ⟨1, l - 0xc0⟩
    else longPayloadInfo (l - 0xf7) rest

/-- The header of the first item, which must lie wholly inside the bytes. -/
def payloadInfo (bytes : List UInt8) : Except DecoderError PayloadInfo :=
  match payloadInfoFrom bytes with
  | .error e => .error e
  | .ok info => if info.size ≤ bytes.length then .ok info else .error .rlpIsTooShort

def isList : List UInt8 → Bool
  | [] => false
  | first :: _ => 0xc0 ≤ first.toNat

def consume (bytes : List UInt8) (len : Nat) : Except DecoderError (List UInt8) :=
  if len ≤ bytes.length then .ok (bytes.drop len) else .error .rlpIsTooShort

/-- Skip a number of items, reading only their headers. The result comes
with the number of bytes skipped. -/
def consumeItems (bytes : List UInt8) : Nat → Except DecoderError (List UInt8 × Nat)
  | 0 => .ok (bytes, 0)
  | items + 1 => do
    let info ← payloadInfo bytes
    let rest ← consume bytes info.size
    let (result, consumed) ← consumeItems rest items
    return (result, info.size + consumed)

/-- The payload of a list as its header announces it, and where it begins. -/
def consumeListPayload (bytes : List UInt8) : Except DecoderError (List UInt8 × Nat) := do
  let info ← payloadInfo bytes
  return ((bytes.drop info.headerLen).take info.valueLen, info.headerLen)

/-- The index of the item that was read last, and where it begins. -/
structure OffsetCache where
  index : Nat
  offset : Nat
deriving DecidableEq, Repr

/-- Reading a list item by item. -/
abbrev Reader (α : Type) := StateT (Option OffsetCache) (Except DecoderError) α

/-- Where the search for an item begins, with the number of items to skip
and the number of bytes before. Behind an item that was read the search goes
on in all the bytes there are, and not in the announced payload only. -/
def searchFrom (bytes : List UInt8) (index : Nat) : Option OffsetCache → Except DecoderError (List UInt8 × Nat × Nat)
  | some cache =>
    if cache.index ≤ index then do
      let rest ← consume bytes cache.offset
      return (rest, index - cache.index, cache.offset)
    else do
      let (payload, consumed) ← consumeListPayload bytes
      return (payload, index, consumed)
  | none => do
    let (payload, consumed) ← consumeListPayload bytes
    return (payload, index, consumed)

/-- The encoding of one item of a list. Neither the number of items nor
what follows the list is looked at. -/
def itemAt (bytes : List UInt8) (index : Nat) : Reader (List UInt8) := fun cache =>
  if isList bytes then do
    let (rest, skip, bytesConsumed) ← searchFrom bytes index cache
    let (item, consumed) ← consumeItems rest skip
    let found ← payloadInfo item
    return (item.take found.size, some ⟨index, bytesConsumed + consumed⟩)
  else .error .rlpExpectedToBeList

/-- The payload of a string item. A byte below 0x80 behind a header of its
own is refused. -/
def decodeValue : List UInt8 → Except DecoderError (List UInt8)
  | [] => .error .rlpIsTooShort
  | first :: rest =>
    let l := first.toNat
    if l ≤ 0x7f then .ok [first]
    else if l ≤ 0xb7 then
      if rest.length < l - 0x80 then .error .rlpInconsistentLengthAndData
      else
        let value := rest.take (l - 0x80)
        if l = 0x81 ∧ (∃ b ∈ value.head?, b < 0x80) then .error .rlpInvalidIndirection
        else .ok value
    else if l ≤ 0xbf then
      let lenOfLen := l - 0xb7
      if rest.length < lenOfLen then .error .rlpInconsistentLengthAndData
      else
        let len := BigEndian.value (rest.take lenOfLen)
        if rest.length < lenOfLen + len then .error .rlpInconsistentLengthAndData
        else .ok ((rest.drop lenOfLen).take len)
    else .error .rlpExpectedToBeData

/-- An integer of at most eight bytes without a leading zero byte. -/
def integerOf (bytes : List UInt8) : Except DecoderError UInt64 :=
  match bytes with
  | [] => .ok 0
  | first :: _ =>
    if 8 < bytes.length then .error .rlpIsTooBig
    else if first = 0 then .error .rlpInvalidIndirection
    else .ok (UInt64.ofNat (BigEndian.value bytes))

def decodeU64 (bytes : List UInt8) : Except DecoderError UInt64 :=
  match decodeValue bytes with
  | .error e => .error e
  | .ok value => integerOf value

def valAt {α : Type} (decode : List UInt8 → Except DecoderError α) (bytes : List UInt8) (index : Nat) : Reader α := do
  let item ← itemAt bytes index
  decode item

def valueAt (bytes : List UInt8) (index : Nat) : Reader (List UInt8) := valAt decodeValue bytes index

def u64At (bytes : List UInt8) (index : Nat) : Reader UInt64 := valAt decodeU64 bytes index

end Rlp
