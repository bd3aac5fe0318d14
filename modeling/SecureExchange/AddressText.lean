import SecureExchange.Library.FinmapCollect
import SecureExchange.Snapshot

namespace SecureExchange

/-- A text is digits with or without one `0x` before them. -/
def Prefixed (text digits : List Char) : Prop := text = digits ∨ text = '0' :: 'x' :: digits

theorem addressFromHex_ok {text : List Char} {a : Address} :
    addressFromHex text = .ok a ↔ Hex.decode (stripHexPrefix text) = some a.bytes := by
  unfold addressFromHex
  constructor
  · intro parsed
    split at parsed
    · cases parsed
    · rename_i bytes decoded
      unfold FixedBytes.ofList? at parsed
      split at parsed
      · cases parsed
      · rename_i fixed found
        split at found
        · cases found
          cases parsed
          exact decoded
        · cases found
  · intro decoded
    rw [decoded]
    simp only [FixedBytes.ofList?_bytes]

theorem prefixed_stripHexPrefix (text : List Char) : Prefixed text (stripHexPrefix text) := by
  unfold stripHexPrefix
  split
  · exact Or.inr rfl
  · exact Or.inl rfl

/-- The second character of a prefix is no digit, so digits keep theirs. -/
theorem stripHexPrefix_of_digits {digits : List Char} (all : ∀ c ∈ digits, Hex.IsDigit c) :
    stripHexPrefix digits = digits := by
  unfold stripHexPrefix
  split
  · have mark : ¬ Hex.IsDigit 'x' := by
      unfold Hex.IsDigit
      decide
    exact absurd (all 'x' (List.mem_cons_of_mem _ List.mem_cons_self)) mark
  · rfl

theorem stripHexPrefix_of_prefixed {text digits : List Char} (prefixed : Prefixed text digits)
    (all : ∀ c ∈ digits, Hex.IsDigit c) : stripHexPrefix text = digits := by
  rcases prefixed with rfl | rfl
  · exact stripHexPrefix_of_digits all
  · rfl

/-- A text is read as the address that its digits denote. -/
theorem addressFromHex_eq_ok {text : List Char} {a : Address} :
    addressFromHex text = .ok a ↔ ∃ digits, Prefixed text digits ∧ Hex.Denote digits a.bytes := by
  rw [addressFromHex_ok]
  constructor
  · intro decoded
    exact ⟨_, prefixed_stripHexPrefix text, Hex.decode_eq_some.mp decoded⟩
  · rintro ⟨digits, prefixed, denote⟩
    rw [stripHexPrefix_of_prefixed prefixed denote.digits]
    exact Hex.decode_eq_some.mpr denote

/-- The accepted texts are those of forty digits. -/
theorem addressFromHex_accepts {text : List Char} :
    (∃ a, addressFromHex text = .ok a) ↔
      ∃ digits, Prefixed text digits ∧ digits.length = 40 ∧ ∀ c ∈ digits, Hex.IsDigit c := by
  simp only [addressFromHex_eq_ok]
  constructor
  · rintro ⟨a, digits, prefixed, denote⟩
    exact ⟨digits, prefixed, by rw [denote.1, a.length_eq], denote.digits⟩
  · rintro ⟨digits, prefixed, forty, all⟩
    obtain ⟨bytes, denote⟩ := Hex.exists_denote (n := 20) forty all
    have length := denote.1
    exact ⟨⟨bytes, by omega⟩, digits, prefixed, denote⟩

theorem denote_encode (bytes : List UInt8) : Hex.Denote (Hex.encode bytes) bytes :=
  Hex.decode_eq_some.mp (Hex.decode_encode bytes)

theorem addressFromHex_encode {text : List Char} {a : Address} (prefixed : Prefixed text (Hex.encode a.bytes)) :
    addressFromHex text = .ok a := addressFromHex_eq_ok.mpr ⟨_, prefixed, denote_encode a.bytes⟩

namespace Ledger

/-- The pair that a snapshot has for an account. -/
def printed (entry : Σ _ : Address, AccountState) : Σ _ : String, AccountState := ⟨hexString entry.1.bytes, entry.2⟩

/-- A snapshot as it is collected from the accounts in the order in which
the map happens to give them. -/
def collectSnapshot (entries : List (Σ _ : Address, AccountState)) : Finmap fun _ : String => AccountState :=
  Finmap.collect (entries.map printed)

/-- No order of the accounts makes one entry replace another. -/
theorem collectSnapshot_eq {l : Ledger} {entries : List (Σ _ : Address, AccountState)}
    (listed : (entries : Multiset _) = l.accounts.entries) : collectSnapshot entries = l.snapshot := by
  have known : entries.NodupKeys := by
    have nodup := l.accounts.nodupKeys
    rwa [← listed, Multiset.coe_nodupKeys] at nodup
  have keys : (entries.map printed).keys = entries.keys.map fun a => hexString a.bytes := by
    rw [List.keys, List.keys, List.map_map, List.map_map]
    rfl
  have distinct : (entries.map printed).NodupKeys := by
    rw [List.NodupKeys, keys]
    exact known.map addressHex_injective
  apply Finmap.ext
  rw [collectSnapshot, Finmap.entries_collect distinct, ← Multiset.map_coe, listed]
  rfl

theorem mem_snapshot {l : Ledger} {key : String} {state : AccountState} :
    l.snapshot.lookup key = some state ↔ ∃ a, key = hexString a.bytes ∧ l.account a = some state := by
  rw [← Option.mem_def, Finmap.mem_lookup_iff, snapshot, Multiset.mem_map]
  constructor
  · rintro ⟨entry, member, same⟩
    cases same
    exact ⟨entry.1, rfl, Finmap.mem_lookup_iff.mpr member⟩
  · rintro ⟨a, rfl, found⟩
    exact ⟨⟨a, state⟩, Finmap.mem_lookup_iff.mp found, rfl⟩

/-- A snapshot has the state of each account under its address. -/
theorem lookup_snapshot (l : Ledger) (a : Address) : l.snapshot.lookup (hexString a.bytes) = l.account a := by
  ext state
  rw [mem_snapshot]
  constructor
  · rintro ⟨b, same, found⟩
    rwa [addressHex_injective same]
  · exact fun found => ⟨a, rfl, found⟩

theorem card_snapshot (l : Ledger) : l.snapshot.keys.card = l.accounts.keys.card := by
  show Multiset.card ((l.accounts.entries.map printed).map Sigma.fst) = Multiset.card (l.accounts.entries.map Sigma.fst)
  rw [Multiset.card_map, Multiset.card_map, Multiset.card_map]

end Ledger

/-- The address text is exact: it is read just when it is forty digits with
or without a `0x`, as the bytes these denote; what is printed is read back,
so no two addresses share it; and in whatever order the accounts are
collected, a snapshot has each of them once, with its state. -/
theorem addressText_exact :
    (∀ text a, addressFromHex text = .ok a ↔ ∃ digits, Prefixed text digits ∧ Hex.Denote digits a.bytes) ∧
    (∀ text, (∃ a, addressFromHex text = .ok a) ↔
      ∃ digits, Prefixed text digits ∧ digits.length = 40 ∧ ∀ c ∈ digits, Hex.IsDigit c) ∧
    (∀ a : Address, addressFromHex (hexString a.bytes).toList = .ok a ∧ addressFromHex (Hex.encode a.bytes) = .ok a) ∧
    (Function.Injective fun a : Address => hexString a.bytes) ∧
    ∀ (l : Ledger) (entries : List (Σ _ : Address, AccountState)), (entries : Multiset _) = l.accounts.entries →
      let snapshot := Ledger.collectSnapshot entries
      (∀ a, snapshot.lookup (hexString a.bytes) = l.account a) ∧
        (∀ key ∈ snapshot, ∃ a ∈ l.accounts, key = hexString a.bytes) ∧
        snapshot.keys.card = l.accounts.keys.card := by
  refine ⟨fun _ _ => addressFromHex_eq_ok, fun _ => addressFromHex_accepts, fun a => ⟨?_, ?_⟩,
    Ledger.addressHex_injective, fun l entries listed => ?_⟩
  · apply addressFromHex_encode
    rw [hexString, String.toList_ofList]
    exact Or.inr rfl
  · exact addressFromHex_encode (Or.inl rfl)
  · rw [Ledger.collectSnapshot_eq listed]
    refine ⟨l.lookup_snapshot, fun key member => ?_, l.card_snapshot⟩
    obtain ⟨state, found⟩ := Finmap.mem_iff.mp member
    obtain ⟨a, same, here⟩ := Ledger.mem_snapshot.mp found
    exact ⟨a, Finmap.mem_iff.mpr ⟨state, here⟩, same⟩

end SecureExchange
