import SecureExchange.Library.Handles
import SecureExchange.SecureTransfer

namespace SecureExchange.Ownership
open Handles

/-- The calls of OpenSSL and of the kernel that give a handle. -/
inductive Call where
  | evpCipherCtxNew
  | evpPkeyCtxNewId
  | evpPkeyParamgen
  | evpPkeyCtxNew
  | evpPkeyKeygen
  | evpPkeyNew
  | evpPkeyGet1EcKey
  | ecKeyNew
  | bioNew
  | bioNewMemBuf
  | pemReadBioPubkey
  | socket
  | accept
deriving DecidableEq

/-- The handles in the members of an `ECCCrypto` and of a `SecureReceiver`.
A member that is null or -1 holds none. -/
structure Objects where
  privateKey : Option (Handle Call)
  publicKey : Option (Handle Call)
  serverSocket : Option (Handle Call)

/-- A function of the transfer program as far as its handles go. What a call
of OpenSSL or of the kernel computes is left open, so that data that only
goes into such a call is left out. -/
abbrev Code (α : Type) := Prog Call Objects α

def EVPCipherContext {α : Type} (body : Handle Call → Code α) : Code α := do
  let ctx ← .new .evpCipherCtxNew [] "Failed to create cipher context"
  (body ctx).ensure (.free ctx)

def EVPPKeyContext {α : Type} (ctx : Handle Call) (body : Code α) : Code α := body.ensure (.free ctx)

/-- A conversation over a socket. -/
def onSocket {α : Type} (socket : Handle Call) : Process.Proc α → Code α
  | .ret a => .ret a
  | .throw message => .throw message
  | .send bytes next => .send socket bytes fun n => onSocket socket (next n)
  | .recv waitAll want next => .recv socket waitAll want fun chunk => onSocket socket (next chunk)

namespace AESCrypto

def encrypt : Code (List UInt8) := do
  let iv ← .fetch [] "Failed to generate IV"
  EVPCipherContext fun ctx => do
    .check [ctx] "Failed to initialize encryption"
    .check [ctx] "Failed to set IV length"
    .check [ctx] "Failed to set key and IV"
    let ciphertext ← .fetch [ctx] "Encryption failed"
    let last ← .fetch [ctx] "Encryption finalization failed"
    let tag ← .fetch [ctx] "Failed to get authentication tag"
    return iv ++ (ciphertext ++ last) ++ tag

def decrypt (encryptedData : List UInt8) : Code (List UInt8) :=
  if encryptedData.length < 12 + 16 then .throw "Encrypted data too small"
  else
    EVPCipherContext fun ctx => do
      .check [ctx] "Failed to initialize decryption"
      .check [ctx] "Failed to set IV length"
      .check [ctx] "Failed to set key and IV"
      let plaintext ← .fetch [ctx] "Decryption failed"
      .check [ctx] "Failed to set authentication tag"
      let last ← .fetch [ctx] "Authentication failed: data has been tampered!"
      return plaintext ++ last

end AESCrypto

namespace ECCCrypto

def setPrivateKey (key : Handle Call) : Code Unit := .update fun ecc => { ecc with privateKey := some key }

def setPublicKey (key : Option (Handle Call)) : Code Unit := .update fun ecc => { ecc with publicKey := key }

/-- The key of the curve is copied by way of two references, of which the
second is used without a look at whether there is one. -/
def copyPublicKey (publicKey : Handle Call) : Code Unit := do
  let ecc ← .members
  let ecKey ← .new .evpPkeyGet1EcKey ecc.privateKey.toList "Failed to get EC_KEY"
  match ← .tryNew .ecKeyNew [] with
  | none => .crash
  | some pubEcKey =>
    let () ← .ask [pubEcKey, ecKey]
    let () ← .ask [pubEcKey, ecKey]
    let () ← .ask [publicKey, pubEcKey]
    .free ecKey
    .free pubEcKey

def extractPublicKey : Code Unit := do
  let publicKey ← .tryNew .evpPkeyNew []
  setPublicKey publicKey
  match publicKey with
  | none => .throw "Failed to create public key"
  | some publicKey => copyPublicKey publicKey

/-- `EVP_PKEY_keygen` on the member, which makes a key where there is none. -/
def keygen (kctx : Handle Call) : Option (Handle Call) → Code Unit
  | some key => .check [kctx, key] "Failed to generate key pair"
  | none => do
    let key ← .new .evpPkeyKeygen [kctx] "Failed to generate key pair"
    setPrivateKey key

def generateKeyPair : Code Unit := do
  let pctx ← .new .evpPkeyCtxNewId [] "Failed to create parameter context"
  EVPPKeyContext pctx do
    .check [pctx] "Failed to initialize paramgen"
    .check [pctx] "Failed to set curve"
    let params ← .new .evpPkeyParamgen [pctx] "Failed to generate parameters"
    let kctx ← .tryNew .evpPkeyCtxNew [params]
    .free params
    match kctx with
    | none => .throw "Failed to create key context"
    | some kctx =>
      EVPPKeyContext kctx do
        .check [kctx] "Failed to initialize keygen"
        let ecc ← .members
        keygen kctx ecc.privateKey
        extractPublicKey

def exportPublicKey : Code (List UInt8) := do
  let bio ← .new .bioNew [] "Failed to create BIO"
  let ecc ← .members
  let written ← .ask (bio :: ecc.publicKey.toList)
  if !written then do
    .free bio
    .throw "Failed to write public key"
  else do
    let result ← .ask [bio]
    .free bio
    return result

def importPublicKey : Code (Handle Call) := do
  let bio ← .new .bioNewMemBuf [] "Failed to create BIO"
  let key ← .tryNew .pemReadBioPubkey [bio]
  .free bio
  match key with
  | none => .throw "Failed to read public key"
  | some key => return key

def deriveSharedSecret (peerPublicKey : Handle Call) : Code (List UInt8) := do
  let ecc ← .members
  let ctx ← .new .evpPkeyCtxNew ecc.privateKey.toList "Failed to create derivation context"
  EVPPKeyContext ctx do
    .check [ctx] "Failed to initialize key derivation"
    .check [ctx, peerPublicKey] "Failed to set peer public key"
    .check [ctx] "Failed to determine secret length"
    .fetch [ctx] "Failed to derive shared secret"

/-- `~ECCCrypto`. -/
def destroy : Code Unit := do
  let ecc ← .members
  .freeIf ecc.privateKey
  .freeIf ecc.publicKey

end ECCCrypto

namespace SecureReceiver

def handleClient (socket : Handle Call) : Code (List UInt8) := do
  ECCCrypto.generateKeyPair
  let ourPublicKey ← ECCCrypto.exportPublicKey
  let sent ← onSocket socket (Utils.sendString ourPublicKey)
  if !sent then .throw "Failed to send public key"
  else do
    let _peerPublicKeyPem ← onSocket socket Utils.receiveString
    let peerPublicKey ← ECCCrypto.importPublicKey
    let _sharedSecret ← ECCCrypto.deriveSharedSecret peerPublicKey
    .free peerPublicKey
    let encryptedData ← onSocket socket Utils.receiveData
    AESCrypto.decrypt encryptedData

def start : Code Unit := do
  let serverSocket ← .tryNew .socket []
  .update fun receiver => { receiver with serverSocket }
  match serverSocket with
  | none => .throw "Failed to create socket"
  | some serverSocket =>
    .check [serverSocket] "Failed to bind socket"
    .check [serverSocket] "Failed to listen on socket"
    let clientSocket ← .new .accept [serverSocket] "Failed to accept connection"
    let _message ← (handleClient clientSocket).onThrow (.free clientSocket)
    .free clientSocket

/-- `~SecureReceiver`, and then the destructor of its member. -/
def destroy : Code Unit := do
  let receiver ← .members
  .freeIf receiver.serverSocket
  ECCCrypto.destroy

end SecureReceiver

namespace SecureSender

def performSecureTransfer (socket : Handle Call) : Code Unit := do
  ECCCrypto.generateKeyPair
  let ourPublicKey ← ECCCrypto.exportPublicKey
  let _peerPublicKeyPem ← onSocket socket Utils.receiveString
  let sent ← onSocket socket (Utils.sendString ourPublicKey)
  if !sent then .throw "Failed to send public key"
  else do
    let peerPublicKey ← ECCCrypto.importPublicKey
    let _sharedSecret ← ECCCrypto.deriveSharedSecret peerPublicKey
    .free peerPublicKey
    let encryptedData ← AESCrypto.encrypt
    let sent ← onSocket socket (Utils.sendData encryptedData)
    if !sent then .throw "Failed to send encrypted data"
    else return ()

/-- The attempts to connect that are left. -/
def connect (sock : Handle Call) : Nat → Code Unit
  | 0 => return ()
  | retries + 1 => do
    let connected : Bool ← .ask [sock]
    if connected then return ()
    else if retries = 0 then do
      .free sock
      .throw "Failed to connect to receiver"
    else connect sock retries

def send : Code Unit := do
  let sock ← .new .socket [] "Failed to create socket"
  connect sock 5
  (performSecureTransfer sock).onThrow (.free sock)
  .free sock

end SecureSender

/-- The scope of the receiver in `main`. -/
def receive : Code Unit := SecureReceiver.start.ensure SecureReceiver.destroy

/-- The scope of the sender in `main`. -/
def send : Code Unit := SecureSender.send.ensure ECCCrypto.destroy

end SecureExchange.Ownership
