import Mathlib.Logic.Function.Basic
import Xidata.Net.Connection

/-!
A node with its connections: what the net plugin is configured with, what it reads of
the chain, the state of its sync manager, and the handshake it sends.  Functions of the
libraries that the plugin is linked with are parameters, as is the chain controller.
-/

namespace Xidata.Net

/-- What stands for a `connection_ptr`. -/
abbrev ConnectionId := ℕ

/-- The flags of `allowed_connections`. -/
structure PossibleConnections where
  producers : Bool := false
  specified : Bool := false
  any : Bool := false
  deriving DecidableEq

/-- `allowed_connections & (Producers | Specified)`. -/
def PossibleConnections.keyed (allowed : PossibleConnections) : Bool :=
  allowed.producers || allowed.specified

/-- The options of the plugin; `privateKeys` are the keys of the map in their order. -/
structure Config where
  p2pAddress : String := ""
  allowedPeers : List PublicKey := []
  privateKeys : List PublicKey := []
  allowedConnections : PossibleConnections := {}
  networkVersionMatch : Bool := false
  chainId : Sha256 := 0
  nodeId : Sha256 := 0
  userAgentName : String := ""
  os : String := "linux"

/-- The serialization, the cryptography and the producer plugin.  `recover` has no key
where it throws. -/
structure Externals where
  pack : NetMessage → Bytes
  hash : ℤ → Sha256
  str : Sha256 → String
  signCompact : PublicKey → Sha256 → Signature
  recover : Signature → Sha256 → Option PublicKey
  isProducerKey : PublicKey → Bool

/-- How `accept_block` ends. -/
inductive AcceptOutcome
  | accepted | unlinkable | blockValidate | assertion | fcException | other
  deriving DecidableEq

/-- What the controller answers.  A look-up has no result where the controller throws or
has none; the last irreversible block is at or below the head. -/
structure ChainView where
  forkDbHeadBlockNum : ℕ := 0
  forkDbHeadBlockId : BlockId := 0
  lastIrreversibleBlockNum : ℕ := 0
  irreversible_le_head : lastIrreversibleBlockNum ≤ forkDbHeadBlockNum := by decide
  getBlockIdForNum : ℕ → Option BlockId := fun _ => none
  fetchBlockById : BlockId → Option SignedBlock := fun _ => none
  fetchBlockByNumber : UInt32 → Option SignedBlock := fun _ => none
  acceptBlock : SignedBlock → AcceptOutcome := fun _ => .accepted
  readOnly : Bool := false

inductive Stages
  | libCatchup | headCatchup | inSync
  deriving DecidableEq

structure SyncManager where
  syncKnownLibNum : ℕ := 0
  syncLastRequestedNum : ℕ := 0
  syncNextExpectedNum : ℕ := 1
  syncReqSpan : ℕ := 100
  source : Option ConnectionId := none
  state : Stages := .inSync
  deriving DecidableEq

/-- `connections` is the set in the order in which it is walked; `conn` has the objects,
those that are no longer in the set too. -/
structure Node where
  connections : List ConnectionId := []
  conn : ConnectionId → Connection := fun _ => {}
  sync : SyncManager := {}
  chain : ChainView := {}
  clock : ℤ := 0
  localTxns : List TransactionId := []

def netVersionBase : UInt16 := 0x04b5
def netVersionRange : UInt16 := 106
def protoBase : UInt16 := 0
def protoExplicitSync : UInt16 := 1
def netVersion : UInt16 := protoExplicitSync

def toProtocolVersion (v : UInt16) : UInt16 :=
  if netVersionBase ≤ v then
    let v := v - netVersionBase
    if netVersionRange < v then 0 else v
  else 0

namespace Node

def update (n : Node) (c : ConnectionId) (f : Connection → Connection) : Node :=
  { n with conn := Function.update n.conn c (f (n.conn c)) }

section Handshake

variable (cfg : Config) (ext : Externals)

def getAuthenticationKey : PublicKey := cfg.privateKeys.headD {}

/-- `handshake_initializer::populate`, over every field but the generation. -/
def populate (n : Node) (hello : HandshakeMessage) : HandshakeMessage :=
  let key := getAuthenticationKey cfg
  let sig := ext.signCompact key (ext.hash n.clock)
  let lib := n.chain.lastIrreversibleBlockNum
  let libId := if lib = 0 then none else n.chain.getBlockIdForNum lib
  let head := n.chain.forkDbHeadBlockNum
  let headId := if head = 0 then none else n.chain.getBlockIdForNum head
  { hello with
    networkVersion := netVersionBase + netVersion
    chainId := cfg.chainId
    nodeId := cfg.nodeId
    key := key
    time := n.clock
    token := if sig = {} then 0 else ext.hash n.clock
    sig := sig
    p2pAddress := cfg.p2pAddress ++ " - " ++ ((ext.str cfg.nodeId).take 7).toString
    os := cfg.os
    agent := cfg.userAgentName
    lastIrreversibleBlockNum := if libId.isSome then UInt32.ofNat lib else 0
    lastIrreversibleBlockId := libId.getD 0
    headNum := if headId.isSome then UInt32.ofNat head else 0
    headId := headId.getD 0 }

end Handshake

@[simp] theorem update_connections (n : Node) (c : ConnectionId) (f : Connection → Connection) :
    (n.update c f).connections = n.connections := rfl

@[simp] theorem update_sync (n : Node) (c : ConnectionId) (f : Connection → Connection) :
    (n.update c f).sync = n.sync := rfl

@[simp] theorem update_chain (n : Node) (c : ConnectionId) (f : Connection → Connection) :
    (n.update c f).chain = n.chain := rfl

@[simp] theorem update_conn_self (n : Node) (c : ConnectionId) (f : Connection → Connection) :
    (n.update c f).conn c = f (n.conn c) := Function.update_self c _ n.conn

theorem update_conn_of_ne {n : Node} {c d : ConnectionId} {f : Connection → Connection}
    (h : d ≠ c) : (n.update c f).conn d = n.conn d := Function.update_of_ne h _ n.conn

end Node

end Xidata.Net
