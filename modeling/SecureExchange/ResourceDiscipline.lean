import SecureExchange.Ownership

namespace Process.Proc
variable {α : Type}

/-- Whatever a conversation throws is allowed. -/
def Throws (allowed : String → Prop) : Proc α → Prop
  | .ret _ => True
  | .throw message => allowed message
  | .send _ next => ∀ n, (next n).Throws allowed
  | .recv _ _ next => ∀ chunk, (next chunk).Throws allowed

end Process.Proc

namespace SecureExchange.Ownership
open Handles Process

section Conversations
variable {allowed : String → Prop}

theorem throws_sendRest (data : List UInt8) (sent : Nat) : (Utils.sendRest data sent).Throws allowed := by
  induction sent using Utils.sendRest.induct data with
  | case1 sent more ih =>
    rw [Utils.sendRest, if_pos more]
    intro n
    dsimp only
    split
    · trivial
    · rename_i taken
      exact ih n taken
  | case2 sent all =>
    rw [Utils.sendRest, if_neg all]
    trivial

theorem throws_sendData (data : List UInt8) : (Utils.sendData data).Throws allowed := by
  intro n
  dsimp only
  split
  · trivial
  · exact throws_sendRest data 0

theorem throws_receiveRest (failure : allowed "Failed to receive data") (len : Nat) (received : List UInt8) :
    (Utils.receiveRest len received).Throws allowed := by
  induction received using Utils.receiveRest.induct len with
  | case1 received more ih =>
    rw [Utils.receiveRest, if_pos more]
    intro chunk
    dsimp only
    split
    · exact failure
    · rename_i some
      exact ih chunk some
  | case2 received all =>
    rw [Utils.receiveRest, if_neg all]
    trivial

theorem throws_receiveData (noLength : allowed "Failed to receive data length") (large : allowed "Data size too large")
    (failure : allowed "Failed to receive data") : Utils.receiveData.Throws allowed := by
  intro len
  dsimp only
  split
  · exact noLength
  · split
    · exact large
    · exact throws_receiveRest failure _ _

end Conversations

/-- The messages of `deriveSharedSecret`. -/
def derivationFailures : List String :=
  ["Failed to create derivation context", "Failed to initialize key derivation", "Failed to set peer public key",
    "Failed to determine secret length", "Failed to derive shared secret"]

def Elsewhere (message : String) : Prop := message ∉ derivationFailures

instance : DecidablePred Elsewhere := fun _ => inferInstanceAs (Decidable (_ ∉ _))

/-- What the program loses on its way to an end: the key that it has read
from the PEM text of the other side. -/
def leaked {α : Type} : End α → Multiset Call
  | .thrown message => if message ∈ derivationFailures then {.pemReadBioPubkey} else 0
  | _ => 0

/-- The keys in the members of the object. -/
def keys (ecc : Objects) : Multiset (Handle Call) := ecc.privateKey.toList + ecc.publicKey.toList

section Functions
variable {s : Store Call Objects} {socket : Handle Call} {α : Type} {throws : String → Prop}

theorem known_own (s : Store Call Objects) (h : Handle Call) : ∀ used ∈ [h], used ∈ (s.with h).live := by
  intro used among
  rw [List.mem_singleton.mp among]
  exact Multiset.mem_cons_self h s.live

theorem known_nil (s : Store Call Objects) : ∀ used ∈ ([] : List (Handle Call)), used ∈ s.live :=
  fun _ none => nomatch none

theorem kept_cipher {body : Handle Call → Code α} (thrown : throws "Failed to create cipher context")
    (inside : ∀ ctx, Meets (body ctx) (s.with ctx) (Kept throws (s.with ctx))) :
    Meets (EVPCipherContext body) s (Kept throws s) :=
  kept_gained (gained_new (known_nil s) thrown) fun ctx _ => kept_scoped (inside ctx)

theorem kept_onSocket {x : Proc α} (known : socket ∈ s.live) (thrown : x.Throws throws) :
    Meets (onSocket socket x) s (Kept throws s) := by
  induction x with
  | ret a => exact rfl
  | throw message => exact ⟨thrown, rfl⟩
  | send bytes next ih => exact ⟨known, trivial, fun n => ih n (thrown n)⟩
  | recv waitAll want next ih => exact ⟨known, fun chunk => ih chunk (thrown chunk)⟩

theorem kept_sendData (known : socket ∈ s.live) (data : List UInt8) :
    Meets (onSocket socket (Utils.sendData data)) s (Kept Elsewhere s) :=
  kept_onSocket known (throws_sendData data)

theorem kept_receiveData (known : socket ∈ s.live) : Meets (onSocket socket Utils.receiveData) s (Kept Elsewhere s) :=
  kept_onSocket known (throws_receiveData (by decide) (by decide) (by decide))

theorem kept_encrypt : Meets AESCrypto.encrypt s (Kept Elsewhere s) := by
  refine kept_bind (kept_fetch (known_nil s) (by decide)) fun iv => kept_cipher (by decide) fun ctx => ?_
  have own := known_own s ctx
  refine kept_bind (kept_check own (by decide)) fun _ => ?_
  refine kept_bind (kept_check own (by decide)) fun _ => ?_
  refine kept_bind (kept_check own (by decide)) fun _ => ?_
  refine kept_bind (kept_fetch own (by decide)) fun ciphertext => ?_
  refine kept_bind (kept_fetch own (by decide)) fun last => ?_
  exact kept_bind (kept_fetch own (by decide)) fun tag => rfl

theorem kept_decrypt (encryptedData : List UInt8) : Meets (AESCrypto.decrypt encryptedData) s (Kept Elsewhere s) := by
  unfold AESCrypto.decrypt
  split
  · exact ⟨by decide, rfl⟩
  · refine kept_cipher (by decide) fun ctx => ?_
    have own := known_own s ctx
    refine kept_bind (kept_check own (by decide)) fun _ => ?_
    refine kept_bind (kept_check own (by decide)) fun _ => ?_
    refine kept_bind (kept_check own (by decide)) fun _ => ?_
    refine kept_bind (kept_fetch own (by decide)) fun plaintext => ?_
    refine kept_bind (kept_check own (by decide)) fun _ => ?_
    exact kept_bind (kept_fetch own (by decide)) fun last => rfl

theorem kept_exportPublicKey (known : ∀ key ∈ s.members.publicKey, key ∈ s.live) :
    Meets ECCCrypto.exportPublicKey s (Kept Elsewhere s) := by
  refine kept_gained (gained_new (known_nil s) (by decide)) fun bio _ => ?_
  refine ⟨fun used among => ?_, fun written => ?_⟩
  · rcases List.mem_cons.mp among with rfl | key
    · exact s.mem_with used
    · exact Multiset.mem_cons_of_mem (known used (Option.mem_toList.mp key))
  · cases written with
    | false => exact free_last ⟨by decide, rfl⟩
    | true => exact ⟨known_own s bio, fun pem => free_last rfl⟩

theorem gained_importPublicKey : Meets ECCCrypto.importPublicKey s (Gained .pemReadBioPubkey Elsewhere s) := by
  refine (gained_new (known_nil s) (by decide)).after_gained (fun bio _ => ?_)
    (fun _ failed => ⟨failed, rfl⟩) fun _ => trivial
  exact Meets.acquire (known_own s bio) (free_last ⟨by decide, rfl⟩) fun key came => free_second ⟨came, rfl⟩

theorem kept_deriveSharedSecret {peer : Handle Call} (own : ∀ key ∈ s.members.privateKey, key ∈ s.live)
    (known : peer ∈ s.live) :
    Meets (ECCCrypto.deriveSharedSecret peer) s (Kept (· ∈ derivationFailures) s) := by
  have keys : ∀ used ∈ s.members.privateKey.toList, used ∈ s.live :=
    fun used among => own used (Option.mem_toList.mp among)
  refine kept_gained (gained_new keys (by decide)) fun ctx _ => kept_scoped ?_
  have ctxOnly := known_own s ctx
  refine kept_bind (kept_check ctxOnly (by decide)) fun _ => ?_
  refine kept_bind (kept_check (fun used among => ?_) (by decide)) fun _ => ?_
  · rcases List.mem_cons.mp among with rfl | second
    · exact s.mem_with used
    · rw [List.mem_singleton.mp second]
      exact Multiset.mem_cons_of_mem known
  · refine kept_bind (kept_check ctxOnly (by decide)) fun _ => ?_
    exact kept_fetch ctxOnly (by decide)

end Functions

/-- Owned are the keys in the members and some handles besides. -/
structure Owning (socket : Option (Handle Call)) (base : Multiset (Handle Call)) (s : Store Call Objects) : Prop where
  member : s.members.serverSocket = socket
  live : s.live = keys s.members + base

def Holding (socket : Option (Handle Call)) (objects : Objects) (held : Multiset (Handle Call)) : Prop :=
  objects.serverSocket = socket ∧ held = keys objects

section Sessions
variable {s : Store Call Objects} {socket : Option (Handle Call)} {base : Multiset (Handle Call)}
  {h kctx : Handle Call} {α : Type}

theorem Owning.with (owning : Owning socket base s) (h : Handle Call) : Owning socket (h ::ₘ base) (s.with h) := by
  refine ⟨owning.member, ?_⟩
  show h ::ₘ s.live = keys s.members + h ::ₘ base
  rw [owning.live, Multiset.add_cons]

theorem Owning.known (owning : Owning socket base s) (among : h ∈ base) : h ∈ s.live := by
  rw [owning.live]
  exact Multiset.mem_add.mpr (Or.inr among)

theorem Owning.privateKey (owning : Owning socket base s) : ∀ key ∈ s.members.privateKey, key ∈ s.live := by
  intro key found
  rw [owning.live, keys]
  exact Multiset.mem_add.mpr (Or.inl (Multiset.mem_add.mpr (Or.inl (Multiset.mem_coe.mpr (Option.mem_toList.mpr found)))))

theorem Owning.publicKey (owning : Owning socket base s) : ∀ key ∈ s.members.publicKey, key ∈ s.live := by
  intro key found
  rw [owning.live, keys]
  exact Multiset.mem_add.mpr (Or.inl (Multiset.mem_add.mpr (Or.inr (Multiset.mem_coe.mpr (Option.mem_toList.mpr found)))))

theorem Owning.returned (owning : Owning socket base s) (a : α) : Held (Holding socket) leaked base (.returned a) s :=
  ⟨keys s.members, 0, ⟨owning.member, rfl⟩, rfl, by rw [owning.live, Multiset.add_zero]⟩

theorem Owning.thrown (owning : Owning socket base s) {message : String} (elsewhere : Elsewhere message) :
    Held (Holding socket) leaked base (.thrown message : End α) s :=
  ⟨keys s.members, 0, ⟨owning.member, rfl⟩, (if_neg elsewhere).symm, by rw [owning.live, Multiset.add_zero]⟩

theorem Owning.after_kept {β : Type} {x : Code α} {k : α → Code β} (owning : Owning socket base s)
    (first : Meets x s (Kept Elsewhere s)) (rest : ∀ a, Meets (k a) s (Held (Holding socket) leaked base)) :
    Meets (x >>= k) s (Held (Holding socket) leaked base) :=
  first.after_kept rest (fun _ failed => owning.thrown failed) fun _ => trivial

theorem Owning.after_gained {x : Code (Handle Call)} {k : Handle Call → Code α} {origin : Call}
    (owning : Owning socket base s) (first : Meets x s (Gained origin Elsewhere s))
    (rest : ∀ h, h.origin = origin → Meets (k h) (s.with h) (Held (Holding socket) leaked base)) :
    Meets (x >>= k) s (Held (Holding socket) leaked base) :=
  first.after_gained rest (fun _ failed => owning.thrown failed) fun _ => trivial

/-- A new private key is in its member. -/
theorem keygen_owning {Q : End Unit → Store Call Objects → Prop} (owning : Owning socket base s) (known : kctx ∈ s.live)
    (rest : ∀ s', Owning socket base s' → s'.members.publicKey = s.members.publicKey → Q (.returned ()) s')
    (stops : ∀ message, Elsewhere message → Q (.thrown message) s) :
    Meets (ECCCrypto.keygen kctx s.members.privateKey) s Q := by
  have own : ∀ used ∈ [kctx], used ∈ s.live := fun used among => List.mem_singleton.mp among ▸ known
  cases found : s.members.privateKey with
  | some key =>
    refine ⟨fun used among => ?_, fun ok => ?_⟩
    · rcases List.mem_cons.mp among with rfl | second
      · exact known
      · rw [List.mem_singleton.mp second]
        exact owning.privateKey key found
    · cases ok with
      | true => exact rest s owning rfl
      | false => exact stops _ (by decide)
  | none =>
    refine Meets.acquire own (stops _ (by decide)) fun key _ => ?_
    refine rest _ ⟨owning.member, ?_⟩ rfl
    show key ::ₘ s.live = keys { s.members with privateKey := some key } + base
    have before : keys s.members = s.members.publicKey.toList := by rw [keys, found]; rfl
    have after : keys { s.members with privateKey := some key } =
        key ::ₘ (s.members.publicKey.toList : Multiset (Handle Call)) :=
      Multiset.singleton_add ..
    rw [owning.live, before, after, Multiset.cons_add]

theorem kept_copyPublicKey (owning : Owning socket base s) {publicKey : Handle Call} (known : publicKey ∈ s.live) :
    Meets (ECCCrypto.copyPublicKey publicKey) s (Kept Elsewhere s) := by
  have keys : ∀ used ∈ s.members.privateKey.toList, used ∈ s.live :=
    fun used among => owning.privateKey used (Option.mem_toList.mp among)
  refine kept_gained (gained_new keys (by decide)) fun ecKey _ => ?_
  refine Meets.acquire (known_nil _) trivial fun pubEcKey _ => ?_
  have both : ∀ used ∈ [pubEcKey, ecKey], used ∈ ((s.with ecKey).with pubEcKey).live := by
    intro used among
    rcases List.mem_cons.mp among with rfl | second
    · exact Store.mem_with ..
    · rw [List.mem_singleton.mp second]
      exact Multiset.mem_cons_of_mem (Store.mem_with ..)
  have third : ∀ used ∈ [publicKey, pubEcKey], used ∈ ((s.with ecKey).with pubEcKey).live := by
    intro used among
    rcases List.mem_cons.mp among with rfl | second
    · exact Multiset.mem_cons_of_mem (Multiset.mem_cons_of_mem known)
    · rw [List.mem_singleton.mp second]
      exact Store.mem_with ..
  have last : Meets (Prog.free pubEcKey : Code Unit) (s.with pubEcKey) (Kept Elsewhere s) :=
    ⟨s.mem_with pubEcKey, s.with_erase pubEcKey⟩
  exact ⟨both, fun _ => ⟨both, fun _ => ⟨third, fun _ => free_second last⟩⟩⟩

theorem held_of_kept {x : Code α} (owning : Owning socket base s) (kept : Meets x s (Kept Elsewhere s)) :
    Meets x s (Held (Holding socket) leaked base) := by
  refine kept.mono fun e s' post => ?_
  cases e with
  | returned a =>
    obtain rfl : s' = s := post
    exact owning.returned a
  | thrown message =>
    obtain ⟨elsewhere, rfl⟩ := post
    exact owning.thrown elsewhere
  | crashed => exact trivial

theorem extractPublicKey_held (owning : Owning socket base s) (empty : s.members.publicKey = none) :
    Meets ECCCrypto.extractPublicKey s (Held (Holding socket) leaked base) := by
  refine Meets.acquire (known_nil s) ?_ fun publicKey _ => ?_
  · have cleared : { s.members with publicKey := none } = s.members := by rw [← empty]
    show Held (Holding socket) leaked _ (.thrown "Failed to create public key" : End Unit)
      ⟨s.live, { s.members with publicKey := none }⟩
    rw [cleared]
    exact owning.thrown (by decide)
  · have before : keys s.members = s.members.privateKey.toList := by rw [keys, empty]; exact Multiset.add_zero _
    have after : keys { s.members with publicKey := some publicKey } =
        (s.members.privateKey.toList : Multiset (Handle Call)) + {publicKey} := rfl
    have owns : Owning socket base ⟨publicKey ::ₘ s.live, { s.members with publicKey := some publicKey }⟩ := by
      refine ⟨owning.member, ?_⟩
      rw [after, Multiset.add_assoc, Multiset.singleton_add, Multiset.add_cons, ← before]
      exact congrArg (Multiset.cons publicKey) owning.live
    show Meets (ECCCrypto.copyPublicKey publicKey)
      ⟨publicKey ::ₘ s.live, { s.members with publicKey := some publicKey }⟩ _
    exact held_of_kept owns (kept_copyPublicKey owns (Multiset.mem_cons_self ..))

/-- The key pair ends up in the members, or what there is of it. -/
theorem generateKeyPair_held (owning : Owning socket base s) (empty : s.members.publicKey = none) :
    Meets ECCCrypto.generateKeyPair s (Held (Holding socket) leaked base) := by
  refine owning.after_gained (gained_new (known_nil s) (by decide)) fun pctx _ => held_scoped ?_
  have outer := owning.with pctx
  have own := known_own s pctx
  refine outer.after_kept (kept_check own (by decide)) fun _ => ?_
  refine outer.after_kept (kept_check own (by decide)) fun _ => ?_
  refine outer.after_gained (gained_new own (by decide)) fun params _ => ?_
  refine Meets.acquire (known_own _ params) (free_last (outer.thrown (by decide))) fun kctx _ =>
    free_second (held_scoped ?_)
  have inner := outer.with kctx
  have kctxOnly := known_own (s.with pctx) kctx
  refine inner.after_kept (kept_check kctxOnly (by decide)) fun _ => ?_
  show Meets (ECCCrypto.keygen kctx _ >>= fun _ => ECCCrypto.extractPublicKey) ((s.with pctx).with kctx) _
  refine Meets.bind (keygen_owning inner (Store.mem_with ..) (fun s' keyed same => ?_) fun _ failed => inner.thrown failed)
  exact extractPublicKey_held keyed (same.trans empty)

/-- With a key pair, the program goes on owning just what it holds. -/
theorem after_generateKeyPair {k : Unit → Code α} (owning : Owning socket base s) (empty : s.members.publicKey = none)
    (rest : ∀ s', Owning socket base s' → Meets (k ()) s' (Held (Holding socket) leaked base)) :
    Meets (ECCCrypto.generateKeyPair >>= k) s (Held (Holding socket) leaked base) := by
  refine Meets.bind ((generateKeyPair_held owning empty).mono fun e s' post => ?_)
  cases e with
  | returned a =>
    obtain ⟨held, more, ⟨member, rfl⟩, origins, live⟩ := post
    obtain rfl : more = 0 := Multiset.map_eq_zero.mp origins
    exact rest s' ⟨member, live.trans (by rw [Multiset.add_zero])⟩
  | thrown message => exact post
  | crashed => exact trivial

/-- The key of the peer is given back, unless the derivation throws. -/
theorem after_agreement {k : List UInt8 → Code α} (owning : Owning socket base s)
    (rest : ∀ secret, Meets (k secret) s (Held (Holding socket) leaked base)) :
    Meets (do
      let peerPublicKey ← ECCCrypto.importPublicKey
      let sharedSecret ← ECCCrypto.deriveSharedSecret peerPublicKey
      Prog.free peerPublicKey
      k sharedSecret) s (Held (Holding socket) leaked base) := by
  refine owning.after_gained gained_importPublicKey fun peer came => ?_
  have privateKey : ∀ key ∈ (s.with peer).members.privateKey, key ∈ (s.with peer).live :=
    fun key found => Multiset.mem_cons_of_mem (owning.privateKey key found)
  refine (kept_deriveSharedSecret privateKey (s.mem_with peer)).after_kept (fun secret => free_last (rest secret))
    (fun message derives => ?_) fun _ => trivial
  refine ⟨keys s.members, {peer}, ⟨owning.member, rfl⟩, ?_, ?_⟩
  · show ({peer.origin} : Multiset Call) = leaked (.thrown message : End α)
    rw [came]
    exact (if_pos derives).symm
  · show peer ::ₘ s.live = keys s.members + {peer} + base
    rw [owning.live, Multiset.add_assoc, Multiset.singleton_add, Multiset.add_cons]

theorem handleClient_held (owning : Owning socket base s) (empty : s.members.publicKey = none) (known : h ∈ base) :
    Meets (SecureReceiver.handleClient h) s (Held (Holding socket) leaked base) := by
  refine after_generateKeyPair owning empty fun s' paired => ?_
  have present := paired.known known
  refine paired.after_kept (kept_exportPublicKey paired.publicKey) fun pem => ?_
  refine paired.after_kept (kept_sendData present _) fun sent => ?_
  cases sent with
  | false => exact paired.thrown (by decide)
  | true =>
    refine paired.after_kept (kept_receiveData present) fun peerPem => ?_
    refine after_agreement paired fun secret => ?_
    refine paired.after_kept (kept_receiveData present) fun data => ?_
    exact held_of_kept paired (kept_decrypt data)

theorem performSecureTransfer_held (owning : Owning socket base s) (empty : s.members.publicKey = none)
    (known : h ∈ base) : Meets (SecureSender.performSecureTransfer h) s (Held (Holding socket) leaked base) := by
  refine after_generateKeyPair owning empty fun s' paired => ?_
  have present := paired.known known
  refine paired.after_kept (kept_exportPublicKey paired.publicKey) fun pem => ?_
  refine paired.after_kept (kept_receiveData present) fun peerPem => ?_
  refine paired.after_kept (kept_sendData present _) fun sent => ?_
  cases sent with
  | false => exact paired.thrown (by decide)
  | true =>
    refine after_agreement paired fun secret => ?_
    refine paired.after_kept kept_encrypt fun data => ?_
    refine paired.after_kept (kept_sendData present _) fun sent => ?_
    cases sent with
    | false => exact paired.thrown (by decide)
    | true => exact paired.returned ()

/-- The socket is given back after the last failed attempt. -/
theorem after_connect {k : Unit → Code α} (owning : Owning socket base s)
    (rest : Meets (k ()) (s.with h) (Held (Holding socket) leaked base)) (retries : Nat) :
    Meets (SecureSender.connect h retries >>= k) (s.with h) (Held (Holding socket) leaked base) := by
  induction retries with
  | zero => exact rest
  | succ retries ih =>
    refine ⟨known_own s h, fun connected => ?_⟩
    cases connected with
    | true => exact rest
    | false =>
      by_cases last : retries = 0
      · subst last
        show Meets (Prog.free h >>= fun _ => .throw "Failed to connect to receiver") (s.with h) _
        exact free_last (owning.thrown (by decide))
      · show Meets ((if retries = 0 then _ else SecureSender.connect h retries) >>= k) (s.with h) _
        rw [if_neg last]
        exact ih

/-- `~ECCCrypto` gives back the keys in its members. -/
theorem destroy_keys {k : Unit → Code α} {Q : End α → Store Call Objects → Prop} {others : Multiset (Handle Call)}
    (live : s.live = keys s.members + others) (goes : Meets (k ()) ⟨others, s.members⟩ Q) :
    Meets (ECCCrypto.destroy.bind k) s Q := by
  have first : s.live = (s.members.privateKey.toList : Multiset (Handle Call)) + (s.members.publicKey.toList + others) := by
    rw [live, keys, Multiset.add_assoc]
  show Meets (((Prog.freeIf s.members.privateKey).bind fun _ => Prog.freeIf s.members.publicKey).bind k) s Q
  rw [Prog.bind_assoc]
  exact free_if first (free_if rfl goes)

end Sessions

/-- Before `main` has opened a scope. -/
def fresh : Store Call Objects := ⟨0, ⟨none, none, none⟩⟩

/-- What is left of a run: the handles that its end is known to lose. -/
def Released {α : Type} : End α → Store Call Objects → Prop
  | .crashed, _ => True
  | e, s => s.live.map Handle.origin = leaked e

theorem start_held : Meets SecureReceiver.start fresh fun e s =>
    ∃ server : Option (Handle Call), Held (Holding server) leaked (server.toList : Multiset (Handle Call)) e s := by
  refine Meets.acquire (known_nil fresh) ?_ fun server _ => ?_
  · exact ⟨none, 0, 0, ⟨rfl, rfl⟩, rfl, rfl⟩
  · have listening : Owning (some server) {server} ⟨{server}, ⟨none, none, some server⟩⟩ := ⟨rfl, rfl⟩
    have own : ∀ used ∈ [server], used ∈ ({server} : Multiset (Handle Call)) := fun used among =>
      Multiset.mem_singleton.mpr (List.mem_singleton.mp among)
    suffices goes : Meets (do
        Prog.check [server] "Failed to bind socket"
        Prog.check [server] "Failed to listen on socket"
        let clientSocket ← Prog.new .accept [server] "Failed to accept connection"
        let _message ← (SecureReceiver.handleClient clientSocket).onThrow (.free clientSocket)
        Prog.free clientSocket) ⟨{server}, ⟨none, none, some server⟩⟩ (Held (Holding (some server)) leaked {server}) from
      goes.mono fun e s' post => ⟨some server, post⟩
    refine listening.after_kept (kept_check own (by decide)) fun _ => ?_
    refine listening.after_kept (kept_check own (by decide)) fun _ => ?_
    refine listening.after_gained (gained_new own (by decide)) fun client _ => ?_
    exact held_caught (fun _ => rfl) (fun _ => rfl)
      (handleClient_held (listening.with client) rfl (Multiset.mem_cons_self ..))

theorem receive_released : Meets receive fresh Released := by
  refine Meets.leave (start_held.mono fun e s' post => ?_)
  obtain ⟨server, post⟩ := post
  have cleaned : ∀ {k : Unit → Code Unit} (held more : Multiset (Handle Call)), Holding server s'.members held →
      s'.live = held + more + (server.toList : Multiset (Handle Call)) → Meets (k ()) ⟨more, s'.members⟩ Released →
      Meets (SecureReceiver.destroy.bind k) s' Released := by
    rintro k _ more ⟨member, rfl⟩ live goes
    have first : s'.live = (s'.members.serverSocket.toList : Multiset (Handle Call)) + (keys s'.members + more) := by
      rw [live, member, Multiset.add_comm]
    show Meets (((Prog.freeIf s'.members.serverSocket).bind fun _ => ECCCrypto.destroy).bind k) s' Released
    rw [Prog.bind_assoc]
    exact free_if first (destroy_keys rfl goes)
  cases e with
  | returned a =>
    obtain ⟨held, more, holding, origins, live⟩ := post
    exact cleaned held more holding live origins
  | thrown message =>
    obtain ⟨held, more, holding, origins, live⟩ := post
    exact cleaned held more holding live origins
  | crashed => exact trivial

theorem send_released : Meets send fresh Released := by
  have idle : Owning none 0 fresh := ⟨rfl, rfl⟩
  have body : Meets SecureSender.send fresh (Held (Holding none) leaked 0) := by
    refine idle.after_gained (gained_new (known_nil fresh) (by decide)) fun sock _ => ?_
    refine after_connect idle ?_ 5
    exact held_caught (fun _ => rfl) (fun _ => rfl)
      (performSecureTransfer_held (idle.with sock) rfl (Multiset.mem_cons_self ..))
  refine Meets.leave (body.mono fun e s' post => ?_)
  cases e with
  | returned a =>
    obtain ⟨held, more, ⟨_, rfl⟩, origins, live⟩ := post
    exact destroy_keys (live.trans (Multiset.add_zero _)) origins
  | thrown message =>
    obtain ⟨held, more, ⟨_, rfl⟩, origins, live⟩ := post
    exact destroy_keys (live.trans (Multiset.add_zero _)) origins
  | crashed => exact trivial

/-- In every run nothing is used or given back that is not owned, and what is
left at the end is what the end is known to lose. -/
def Careful (program : Code Unit) : Prop :=
  ∀ exchanges there, Handles.Run (program, fresh) exchanges there →
    ¬ Faulty there ∧ ∀ e, there.1.outcome = some e → Released e there.2

theorem careful_of_released {program : Code Unit} (released : Meets program fresh Released) : Careful program := by
  intro exchanges there run
  have later := released.reach run
  exact ⟨later.sound, fun e ended => later.outcome ended⟩

/-- Whatever OpenSSL, the kernel and the other side do, the two programs free
and close nothing twice and use nothing that is freed or closed, and when
they end without being broken off they have given everything back, but for
the key read from the other side's text where deriving the shared secret
throws. -/
theorem handles_released : Careful receive ∧ Careful send :=
  ⟨careful_of_released receive_released, careful_of_released send_released⟩

end SecureExchange.Ownership
