import Xidata.Net.SyncManager

/-!
The handlers of the messages of a peer.  A handler changes the node and calls the sync
manager, the dispatcher, the senders of blocks and transactions, and the chain; the calls
are its second result.  What the sync manager does is modelled, what the others do to the
node is a parameter.
-/

namespace Xidata.Net

/-- A call of a handler into the sync manager, the dispatcher, the senders of blocks and
transactions, or the chain. -/
inductive Call
  | syncRecvHandshake (msg : HandshakeMessage)
  | syncRecvNotice (msg : NoticeMessage)
  | syncRecvBlock (id : BlockId) (num : UInt32)
  | syncRejectedBlock (num : UInt32)
  | dispatcherRecvNotice (msg : NoticeMessage)
  | dispatcherRecvBlock (id : BlockId) (num : UInt32)
  | dispatcherRecvTransaction (id : TransactionId)
  | blkSendBranch
  | blkSend (ids : List BlockId)
  | txnSendPending (ids : List TransactionId)
  | txnSend (ids : List TransactionId)
  | stopSend
  | enqueueSyncBlock
  | acceptBlock (block : SignedBlock)
  | acceptTransaction (trx : PackedTransaction)
  deriving DecidableEq

/-- The default limit of how old the handshake of a peer may be, one second. -/
def peerAuthenticationInterval : ℤ := 1000000000

section Checks

variable (cfg : Config) (ext : Externals)

def isValid (msg : HandshakeMessage) : Bool :=
  msg.lastIrreversibleBlockNum ≤ msg.headNum ∧ msg.p2pAddress ≠ "" ∧ msg.os ≠ "" ∧
    ¬ ((msg.sig ≠ {} ∨ msg.token ≠ 0) ∧ msg.token ≠ ext.hash msg.time)

/-- Only a handshake from the past is too old; the difference of the two times wraps. -/
def authenticatePeer (clock : ℤ) (msg : HandshakeMessage) : Bool :=
  if cfg.allowedConnections = {} then false
  else if cfg.allowedConnections = { any := true } then true
  else if cfg.allowedConnections.keyed ∧ msg.key ∉ cfg.allowedPeers ∧
      msg.key ∉ cfg.privateKeys ∧ ¬ ext.isProducerKey msg.key then false
  else if peerAuthenticationInterval < (clock - msg.time).bmod (2 ^ 64) then false
  else if msg.sig ≠ {} ∧ msg.token ≠ 0 then
    if ext.hash msg.time ≠ msg.token then false
    else match ext.recover msg.sig msg.token with
      | none => false
      | some peerKey => !(cfg.allowedConnections.keyed && peerKey ≠ msg.key)
  else !cfg.allowedConnections.keyed

end Checks

namespace Connection

/-- Only then are the other connections looked at. -/
def checksDuplicates (c : Connection) : Bool :=
  c.peerAddr = "" ∨ c.lastHandshakeRecv.nodeId = 0

/-- `check` is a connection to the same peer, and the handshakes of `c` were sent later. -/
def duplicateOf (c check : Connection) (msg : HandshakeMessage) : Bool :=
  check.connected && check.peerName = msg.p2pAddress &&
    !(msg.time + c.lastHandshakeSent.time ≤
      check.lastHandshakeSent.time + check.lastHandshakeRecv.time)

end Connection

namespace Node

variable (cfg : Config) (ext : Externals) (n : Node)

def duplicate (c : ConnectionId) (msg : HandshakeMessage) : Bool :=
  (n.conn c).checksDuplicates &&
    n.connections.any fun check => check ≠ c && (n.conn c).duplicateOf (n.conn check) msg

def onFork (msg : HandshakeMessage) : Bool :=
  let peerLib := msg.lastIrreversibleBlockNum.toNat
  peerLib ≤ n.chain.lastIrreversibleBlockNum ∧ 0 < peerLib ∧
    n.chain.getBlockIdForNum peerLib ≠ some msg.lastIrreversibleBlockId

def tell (c : ConnectionId) (reason : GoAwayReason) : Node :=
  n.enqueue ext c (.goAway { reason := reason })

/-- The end of the handler of a handshake. -/
def greet (c : ConnectionId) (msg : HandshakeMessage) : Node × List Call :=
  ((n.update c fun c => { c with lastHandshakeRecv := msg }).recvHandshake ext c msg,
    [.syncRecvHandshake msg])

def handleHandshake (c : ConnectionId) (msg : HandshakeMessage) : Node × List Call :=
  if ¬ isValid ext msg then (n.tell ext c .fatalOther, [])
  else
    let n := n.update c fun c => { c with connecting := false }
    if msg.generation ≠ 1 then n.greet ext c msg
    else if msg.nodeId = cfg.nodeId then (n.tell ext c .self, [])
    else if n.duplicate c msg then
      let n := n.enqueue ext c (.goAway { reason := .duplicate, nodeId := cfg.nodeId })
      (n.update c fun c => { c with noRetry := .duplicate }, [])
    else if msg.chainId ≠ cfg.chainId then (n.tell ext c .wrongChain, [])
    else
      let version := toProtocolVersion msg.networkVersion
      let n := n.update c fun c => { c with protocolVersion := version }
      if version ≠ netVersion ∧ cfg.networkVersionMatch then (n.tell ext c .wrongVersion, [])
      else
        let n := n.update c fun c => { c with nodeId := msg.nodeId }
        if ¬ authenticatePeer cfg ext n.clock msg then (n.tell ext c .authentication, [])
        else if n.onFork msg then (n.tell ext c .forked, [])
        else
          let n := if (n.conn c).sentHandshakeCount = 0 then n.sendHandshake cfg ext c else n
          n.greet ext c msg

def handleGoAway (c : ConnectionId) (msg : GoAwayMessage) : Node :=
  let n := n.update c fun c => { c with noRetry := msg.reason }
  let n := if msg.reason = .duplicate then n.update c fun c => { c with nodeId := msg.nodeId }
    else n
  (n.update c Connection.flushQueues).close ext c

/-- The offset of the clocks, a floating point number that is only logged, is left out. -/
def handleTime (c : ConnectionId) (msg : TimeMessage) : Node :=
  let msg := { msg with dst := n.clock }
  if msg.xmt = 0 ∨ msg.xmt = (n.conn c).xmt then n
  else
    let n := n.update c fun c => { c with xmt := msg.xmt, rec_ := msg.rec_, dst := msg.dst }
    if msg.org = 0 then
      n.enqueue ext c (.time { org := msg.xmt, rec_ := msg.dst, xmt := n.clock, dst := 0 })
    else n.update c fun c => { c with org := 0, rec_ := 0 }

section Components

variable (perform : ConnectionId → Call → Node → Node)

/-- The part of a notice about transactions: the request that is to be sent at the end, and
the calls. -/
def noticeTrx (c : ConnectionId) (msg : NoticeMessage) :
    Node × Option RequestMessage × List Call :=
  match msg.knownTrx.mode with
  | .lastIrrCatchUp =>
    (n.update c fun c => { c with
      lastHandshakeRecv := { c.lastHandshakeRecv with headNum := msg.knownTrx.pending } },
      none, [])
  | .catchUp =>
    if 0 < msg.knownTrx.pending then
      (n, some { reqTrx := { mode := .catchUp, ids := n.localTxns } }, [])
    else (n, none, [])
  | .normal =>
    (perform c (.dispatcherRecvNotice msg) n, none, [.dispatcherRecvNotice msg])
  | _ => (n, none, [])

def sendRequest (c : ConnectionId) (req : Option RequestMessage) : Node :=
  match req with
  | some req => n.enqueue ext c (.request req)
  | none => n

def handleNotice (c : ConnectionId) (msg : NoticeMessage) : Node × List Call :=
  let (n, req, calls) := (n.update c fun c => { c with connecting := false }).noticeTrx perform c msg
  match msg.knownBlocks.mode with
  | .none =>
    -- A notice of pending transactions alone ends here, its request unsent.
    if msg.knownTrx.mode ≠ .normal then (n, calls) else (n.sendRequest ext c req, calls)
  | .lastIrrCatchUp | .catchUp =>
    ((n.recvNotice ext c msg).sendRequest ext c req, calls ++ [.syncRecvNotice msg])
  | .normal =>
    ((perform c (.dispatcherRecvNotice msg) n).sendRequest ext c req,
      calls ++ [.dispatcherRecvNotice msg])
  | .other _ => (n.sendRequest ext c req, calls)

/-- The calls are made one after the other. -/
def performAll (c : ConnectionId) (calls : List Call) : Node :=
  calls.foldl (fun n call => perform c call n) n

def handleRequest (c : ConnectionId) (msg : RequestMessage) : Node × List Call :=
  let blocks : List Call := match msg.reqBlocks.mode with
    | .catchUp => [.blkSendBranch]
    | .normal => [.blkSend msg.reqBlocks.ids]
    | _ => []
  let trx : List Call := match msg.reqTrx.mode with
    | .catchUp => [.txnSendPending msg.reqTrx.ids]
    | .normal => [.txnSend msg.reqTrx.ids]
    | .none => if msg.reqBlocks.mode = .none then [.stopSend] else []
    | _ => []
  (n.performAll perform c (blocks ++ trx), blocks ++ trx)

/-- A refill that is queued for a closed socket closes the connection. -/
def handleSyncRequest (c : ConnectionId) (msg : SyncRequestMessage) : Node × List Call :=
  let fetch := n.chain.fetchBlockByNumber
  let closes := msg.endBlock ≠ 0 ∧ (fetch msg.startBlock).isSome ∧ (n.conn c).outQueue = [] ∧
    (n.conn c).socket.isOpen = false
  let n := n.update c fun c => c.handleSyncRequest ext.pack fetch msg
  (if closes then n.resetLibNum ext c else n,
    if msg.endBlock = 0 then [] else [.enqueueSyncBlock])

def handlePackedTransaction (c : ConnectionId) (msg : PackedTransaction) : Node × List Call :=
  if n.chain.readOnly then (n, [])
  else if n.isActive c then (n, [])
  else if msg.id ∈ n.localTxns then (n, [])
  else
    let calls : List Call := [.dispatcherRecvTransaction msg.id, .acceptTransaction msg]
    (n.performAll perform c calls, calls)

/-- The reason to reject a block, `noReason` where it is taken as received. -/
def AcceptOutcome.reason : AcceptOutcome → GoAwayReason
  | .accepted | .fcException => .noReason
  | .unlinkable => .unlinkable
  | .blockValidate => .validation
  | .assertion | .other => .fatalOther

def handleSignedBlock (c : ConnectionId) (msg : SignedBlock) : Node × List Call :=
  if (n.chain.fetchBlockById msg.id).isSome then
    (n.recvBlock cfg ext c msg.id msg.blockNum, [.syncRecvBlock msg.id msg.blockNum])
  else
    let calls : List Call := [.dispatcherRecvBlock msg.id msg.blockNum, .acceptBlock msg]
    let reason := AcceptOutcome.reason (n.chain.acceptBlock msg)
    let n := n.performAll perform c calls
    if reason = .noReason then
      (n.recvBlock cfg ext c msg.id msg.blockNum, calls ++ [.syncRecvBlock msg.id msg.blockNum])
    else (n.rejectedBlock cfg ext c, calls ++ [.syncRejectedBlock msg.blockNum])

def handleMessage (c : ConnectionId) : NetMessage → Node × List Call
  | .handshake msg => n.handleHandshake cfg ext c msg
  | .chainSize _ => (n, [])
  | .goAway msg => (n.handleGoAway ext c msg, [])
  | .time msg => (n.handleTime ext c msg, [])
  | .notice msg => n.handleNotice ext perform c msg
  | .request msg => n.handleRequest perform c msg
  | .syncRequest msg => n.handleSyncRequest ext c msg
  | .signedBlock msg => n.handleSignedBlock cfg ext perform c msg
  | .packedTransaction msg => n.handlePackedTransaction perform c msg

end Components

end Node

end Xidata.Net
