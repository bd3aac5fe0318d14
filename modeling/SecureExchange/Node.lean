import Mathlib.Data.Finset.Insert
import SecureExchange.Library.Reactive
import SecureExchange.Ledger
import SecureExchange.Transaction

namespace SecureExchange
open Reactive

/-- The GossipSub topic of transactions. -/
def txTopic : String := "/crypto-node/tx/1.0.0"

structure TransferRequest where
  txRlp : List UInt8
deriving DecidableEq

structure TransferResponse where
  accepted : Bool
  reason : String
  txHash : String
deriving DecidableEq, Repr

/-- What the event loop of one node works on. -/
structure Node (C : Primitives) (Peer : Type) where
  wallet : Wallet C
  ledger : Ledger
  txCache : Finset String
  connectedPeers : Finset Peer

/-- What reaches the event loop. A typed line comes with the clock and with
whether GossipSub takes a message published now. -/
inductive Event (Peer : Type) where
  | stdin (line : String) (now : UInt64) (publishOk : Bool)
  | gossip (data : List UInt8)
  | transferRequest (peer : Peer) (request : TransferRequest)
  | transferResponse (peer : Peer) (response : TransferResponse)
  | connectionEstablished (peer : Peer)
  | connectionClosed (peer : Peer)
deriving DecidableEq

/-- What a handler does besides changing the node: its ledger calls
(`transferred` once `Ledger::transfer` returned, `credited` when
`Ledger::credit` is called), its messages and what it prints. -/
inductive Effect (Peer : Type) where
  | transferred (tx : SignedTransaction)
  | credited (tx : SignedTransaction)
  | sendRequest (peers : Finset Peer) (request : TransferRequest)
  | publish (topic : String) (data : List UInt8) (ok : Bool)
  | sendResponse (peer : Peer) (response : TransferResponse)
  | println (text : String)

/-- The white space that splits a command line. -/
def isWhitespace (c : Char) : Bool :=
  let n := c.toNat
  (9 ≤ n && n ≤ 13) || n = 0x20 || n = 0x85 || n = 0xa0 || n = 0x1680 ||
    (0x2000 ≤ n && n ≤ 0x200a) || n = 0x2028 || n = 0x2029 || n = 0x202f || n = 0x205f || n = 0x3000

def trim (text : List Char) : List Char :=
  ((text.dropWhile isWhitespace).reverse.dropWhile isWhitespace).reverse

def splitWhitespace (text : List Char) : List (List Char) :=
  (text.splitOnP isWhitespace).filter fun part => !part.isEmpty

/-- The digits of a decimal number. -/
def parseDigits : List Char → Nat → Option Nat
  | [], acc => some acc
  | c :: rest, acc =>
    if '0' ≤ c ∧ c ≤ '9' then parseDigits rest (10 * acc + (c.toNat - '0'.toNat)) else none

/-- A decimal `u64` with an optional plus sign. -/
def parseU64 (text : List Char) : Option UInt64 :=
  let digits := match text with
    | '+' :: rest => rest
    | _ => text
  if digits.isEmpty then none
  else
    match parseDigits digits 0 with
    | none => none
    | some n => if n < 2 ^ 64 then some (UInt64.ofNat n) else none

namespace Node
variable {C : Primitives} {Peer : Type}

/-- A node as `main` sets it up, before its first event. -/
def start (wallet : Wallet C) (balance : UInt64) : Node C Peer where
  wallet
  ledger := (Ledger.new.register wallet.address balance).1
  txCache := ∅
  connectedPeers := ∅

/-- Print a line and leave the node alone. -/
def say (n : Node C Peer) (text : String) : Reaction (Node C Peer) (Effect Peer) :=
  ⟨n, [.println text], false⟩

/-- The part of `send` that follows the parsed address and amount. Ledger
and cache change first; the requests and the publish come after, and
whether they reach anyone only decides what is printed. -/
def sendTransfer (p : Profile) (n : Node C Peer) (toAddr : Address) (amount now : UInt64)
    (publishOk : Bool) : Reaction (Node C Peer) (Effect Peer) :=
  let nonce := (n.ledger.nonce n.wallet.address).getD 0
  let tx := SignedTransaction.create n.wallet toAddr amount nonce now
  match tx.verify C with
  | .error _ => .stay n
  | .ok () =>
    match n.ledger.transfer p n.wallet.address toAddr amount nonce with
    | .panicked ledger => ⟨{ n with ledger }, [], true⟩
    | .returned ledger (.error e) =>
      ⟨{ n with ledger }, [.println ("Transfer rejected by ledger: " ++ e.display)], false⟩
    | .returned ledger (.ok ()) =>
      let txHash := tx.hash C
      let rlpBytes := tx.toRlpBytes
      let delivered := decide n.connectedPeers.Nonempty || publishOk
      let report :=
        if delivered then
          [.println (s!"✓ Sent {amount} to " ++ hexString toAddr.bytes ++ s!" (tx: {txHash})")]
        else
          [.println "⚠ No peers connected. Transaction saved locally.",
            .println "  Connect to a peer and try again."]
      ⟨{ n with ledger, txCache := insert txHash n.txCache },
        [.transferred tx, .sendRequest n.connectedPeers ⟨rlpBytes⟩,
          .publish txTopic rlpBytes publishOk] ++ report, false⟩

def helpText : List String :=
  ["Commands:", "  send <address_hex> <amount>  — transfer funds",
    "  balance                      — show local balance",
    "  peers                        — list connected peers",
    "  info                         — show node info",
    "  ledger                       — dump all known accounts"]

/-- A typed line. The commands that only display libp2p's own view or the
whole ledger print nothing here. -/
def handleCommand (p : Profile) (n : Node C Peer) (line : String) (now : UInt64) (publishOk : Bool) :
    Reaction (Node C Peer) (Effect Peer) :=
  match splitWhitespace (trim line.toList) with
  | [] => .stay n
  | word :: arguments =>
    let command := String.ofList word
    if command = "send" ∨ command = "transfer" then
      match arguments with
      | [address, amount] =>
        match addressFromHex address with
        | .error e => n.say ("Invalid address: " ++ e.display)
        | .ok toAddr =>
          match parseU64 amount with
          | none => n.say "Invalid amount"
          | some amount => n.sendTransfer p toAddr amount now publishOk
      | _ => n.say "Usage: send <address_hex> <amount>"
    else if command = "balance" ∨ command = "bal" then
      let bal := (n.ledger.balance n.wallet.address).getD 0
      let nonce := (n.ledger.nonce n.wallet.address).getD 0
      n.say ("Address: " ++ n.wallet.addressHex ++ s!"\nBalance: {bal}\nNonce  : {nonce}")
    else if command = "peers" ∨ command = "info" ∨ command = "ledger" ∨ command = "accounts" then
      .stay n
    else if command = "help" ∨ command = "?" then ⟨n, helpText.map .println, false⟩
    else n.say (s!"Unknown command: '{command}'. Type 'help' for usage.")

/-- A GossipSub message: decode, drop duplicates, verify, credit. -/
def handleGossip (p : Profile) (n : Node C Peer) (data : List UInt8) :
    Reaction (Node C Peer) (Effect Peer) :=
  match SignedTransaction.fromRlpBytes data with
  | .error _ => .stay n
  | .ok tx =>
    let txHash := tx.hash C
    if txHash ∈ n.txCache then .stay n
    else
      match tx.verify C with
      | .error _ => .stay n
      | .ok () =>
        if tx.toAddr = n.wallet.address then
          match n.ledger.credit p tx.toAddr tx.amount with
          | .panicked ledger => ⟨{ n with ledger }, [.credited tx], true⟩
          | .returned ledger () =>
            let received := "\n💰 Incoming transfer: " ++ s!"{tx.amount} from " ++
              hexString tx.fromAddr.bytes ++ s!"\n   Tx: {txHash}"
            ⟨{ n with ledger, txCache := insert txHash n.txCache }, [.credited tx, .println received], false⟩
        else ⟨{ n with txCache := insert txHash n.txCache }, [], false⟩

/-- A direct transfer request: decode, verify, check the addressee, credit.
The cache is written but not read. -/
def handleTransferRequest (p : Profile) (n : Node C Peer) (peer : Peer) (request : TransferRequest) :
    Reaction (Node C Peer) (Effect Peer) :=
  match SignedTransaction.fromRlpBytes request.txRlp with
  | .error _ =>
    ⟨n, [.sendResponse peer
      ⟨false, "RLP decode error: Failed to RLP-decode SignedTransaction", ""⟩], false⟩
  | .ok tx =>
    let txHash := tx.hash C
    match tx.verify C with
    | .error e =>
      ⟨n, [.sendResponse peer ⟨false, "Verification failed: " ++ e.display, txHash⟩], false⟩
    | .ok () =>
      if tx.toAddr ≠ n.wallet.address then
        ⟨n, [.sendResponse peer ⟨false, "Transaction not addressed to this node", txHash⟩], false⟩
      else
        match n.ledger.credit p tx.toAddr tx.amount with
        | .panicked ledger => ⟨{ n with ledger }, [.credited tx], true⟩
        | .returned ledger () =>
          let received := "\n💰 Direct transfer received: " ++ s!"{tx.amount} from " ++
            hexString tx.fromAddr.bytes ++ s!"\n   Tx: {txHash}"
          ⟨{ n with ledger, txCache := insert txHash n.txCache },
            [.credited tx, .println received, .sendResponse peer ⟨true, "", txHash⟩], false⟩

/-- The answer to a request of this node. -/
def handleTransferResponse (n : Node C Peer) (response : TransferResponse) :
    Reaction (Node C Peer) (Effect Peer) :=
  if response.accepted then n.say s!"✓ Transfer confirmed by peer (tx: {response.txHash})"
  else n.say s!"✗ Transfer rejected: {response.reason} (tx: {response.txHash})"

/-- One turn of the event loop. -/
def handle [DecidableEq Peer] (p : Profile) : Machine (Node C Peer) (Event Peer) (Effect Peer)
  | n, .stdin line now publishOk => n.handleCommand p line now publishOk
  | n, .gossip data => n.handleGossip p data
  | n, .transferRequest peer request => n.handleTransferRequest p peer request
  | n, .transferResponse _ response => n.handleTransferResponse response
  | n, .connectionEstablished peer => .stay { n with connectedPeers := insert peer n.connectedPeers }
  | n, .connectionClosed peer => .stay { n with connectedPeers := n.connectedPeers.erase peer }

end Node

end SecureExchange
