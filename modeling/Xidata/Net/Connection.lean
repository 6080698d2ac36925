import Xidata.Library.ByteCode
import Xidata.Net.Protocol

/-!
A connection of the net plugin and its two write queues.  Buffers are queued in
`writeQueue`; a non-empty `outQueue` is the sign of a write in progress, which
holds the buffers that were handed to the socket last.  The serialization of
messages is a parameter.
-/

namespace Xidata.Net

/-- What a queued write calls when it is done: `enqueue` closes the connection after
a message that says so, the senders of transactions count down what is in flight. -/
inductive Callback
  | sent (closeAfterSend : GoAwayReason)
  | decrInFlight (id : TransactionId)
  deriving DecidableEq

structure QueuedWrite where
  buff : Bytes
  callback : Callback
  deriving DecidableEq

/-- The blocks that the peer has asked for. -/
structure SyncState where
  startBlock : UInt32
  endBlock : UInt32
  last : UInt32
  deriving DecidableEq

/-- A socket and the asynchronous writes it has not reported back yet. -/
structure Socket where
  isOpen : Bool := false
  outstanding : List (List Bytes) := []
  deriving DecidableEq

/-- What has happened to the writes of a connection so far: those that were queued, the
buffers handed to the socket, those it has written, and the writes called back. -/
structure WriteLog where
  queued : List QueuedWrite := []
  handed : List Bytes := []
  written : List Bytes := []
  called : List QueuedWrite := []
  deriving DecidableEq

structure Connection where
  peerRequested : Option SyncState := none
  socket : Socket := {}
  writeQueue : List QueuedWrite := []
  outQueue : List QueuedWrite := []
  nodeId : Sha256 := 0
  lastHandshakeRecv : HandshakeMessage := {}
  lastHandshakeSent : HandshakeMessage := {}
  sentHandshakeCount : Int16 := 0
  connecting : Bool := false
  syncing : Bool := false
  protocolVersion : UInt16 := 0
  peerAddr : String := ""
  noRetry : GoAwayReason := .noReason
  forkHead : BlockId := 0
  forkHeadNum : UInt32 := 0
  org : ℤ := 0
  rec_ : ℤ := 0
  xmt : ℤ := 0
  dst : ℤ := 0
  log : WriteLog := {}
  deriving DecidableEq

namespace Connection

/-- `connection(string endpoint)`: to be dialed. -/
def ofEndpoint (endpoint : String) : Connection := { peerAddr := endpoint }

/-- `connection(socket_ptr s)`: accepted. -/
def ofSocket : Connection := { socket := { isOpen := true }, connecting := true }

def connected (c : Connection) : Bool := c.socket.isOpen && !c.connecting

def current (c : Connection) : Bool := c.connected && !c.syncing

def peerName (c : Connection) : String :=
  if c.lastHandshakeRecv.p2pAddress ≠ "" then c.lastHandshakeRecv.p2pAddress
  else if c.peerAddr ≠ "" then c.peerAddr
  else "connecting client"

def reset (c : Connection) : Connection := { c with peerRequested := none }

def flushQueues (c : Connection) : Connection := { c with writeQueue := [] }

/-- Writes that the socket was given before are still reported back. -/
def close (c : Connection) : Connection :=
  let c := { c with socket := { c.socket with isOpen := false } }.flushQueues
  let c := { c with connecting := false, syncing := false }.reset
  { c with sentHandshakeCount := 0, lastHandshakeRecv := {}, lastHandshakeSent := {} }

/-- All that is queued goes to the socket in one asynchronous write. -/
def handOver (c : Connection) : Connection :=
  let bufs := c.writeQueue.map QueuedWrite.buff
  { c with
    outQueue := c.outQueue ++ c.writeQueue
    writeQueue := []
    socket := { c.socket with outstanding := c.socket.outstanding ++ [bufs] }
    log := { c.log with handed := c.log.handed ++ bufs } }

def doQueueWrite (c : Connection) : Connection :=
  if c.writeQueue = [] ∨ c.outQueue ≠ [] then c
  else if c.socket.isOpen then c.handOver
  else c.close

def pushWrite (c : Connection) (m : QueuedWrite) : Connection :=
  { c with
    writeQueue := c.writeQueue ++ [m]
    log := { c.log with queued := c.log.queued ++ [m] } }

def queueWrite (c : Connection) (buff : Bytes) (triggerSend : Bool) (callback : Callback) :
    Connection :=
  let c := c.pushWrite ⟨buff, callback⟩
  if c.outQueue = [] ∧ triggerSend then c.doQueueWrite else c

section Messages

variable (pack : NetMessage → Bytes)

/-- The length of the payload in four bytes, and the payload. -/
def enqueue (c : Connection) (m : NetMessage) (triggerSend : Bool) : Connection :=
  let payload := pack m
  c.queueWrite (ByteCode.littleEndian 4 payload.length ++ payload) triggerSend
    (.sent m.closeAfterSend)

/-- The next block of those the peer has asked for; `fetchBlockByNumber` has none where
the chain has no such block or throws. -/
def enqueueSyncBlock (fetchBlockByNumber : UInt32 → Option SignedBlock) (c : Connection) :
    Connection :=
  match c.peerRequested with
  | none => c
  | some s =>
    let num := s.last + 1
    let triggerSend := num = s.startBlock
    let c := { c with peerRequested := if num = s.endBlock then none else some { s with last := num } }
    match fetchBlockByNumber num with
    | some sb => c.enqueue pack (.signedBlock sb) triggerSend
    | none => c

/-- One callback: the transactions in flight are the node's, not the connection's. -/
def call (c : Connection) (m : QueuedWrite) : Connection :=
  let c := { c with log := { c.log with called := c.log.called ++ [m] } }
  match m.callback with
  | .sent closeAfterSend => if closeAfterSend ≠ .noReason then c.close else c
  | .decrInFlight _ => c

/-- The handler of the `k`-th outstanding write. -/
def writeDone (fetchBlockByNumber : UInt32 → Option SignedBlock) (c : Connection) (k : ℕ)
    (failed : Bool) : Connection :=
  let written := if failed then [] else (c.socket.outstanding[k]?).getD []
  let c := { c with
    socket := { c.socket with outstanding := c.socket.outstanding.eraseIdx k }
    log := { c.log with written := c.log.written ++ written } }
  let c := c.outQueue.foldl call c
  if failed then c.close
  else ({ c with outQueue := [] }.enqueueSyncBlock pack fetchBlockByNumber).doQueueWrite

/-- `handle_message` of a sync request. -/
def handleSyncRequest (fetchBlockByNumber : UInt32 → Option SignedBlock) (c : Connection)
    (msg : SyncRequestMessage) : Connection :=
  if msg.endBlock = 0 then { c with peerRequested := none }.flushQueues
  else { c with peerRequested := some ⟨msg.startBlock, msg.endBlock, msg.startBlock - 1⟩
    }.enqueueSyncBlock pack fetchBlockByNumber

end Messages

end Connection

end Xidata.Net
