import Xidata.Net.Node

/-!
The sync manager: which blocks are requested of which connection, and when the node is
in sync.  Block numbers are natural numbers.  A connection that is closed is reported to
the sync manager, which may then ask another connection; the request of the dispatcher
that is retried on that occasion is not modelled.
-/

namespace Xidata.Net

namespace Node

section Requests

variable (ext : Externals) (n : Node)

def current (c : ConnectionId) : Bool := (n.conn c).current

/-- The source that is asked next: the connection that is supplied if it is current, else
the next current one after the old source. -/
def selectSource (conn : Option ConnectionId) : Option ConnectionId :=
  match conn.filter n.current with
  | some c => some c
  | none =>
    if n.connections.length = 1 then n.sync.source.or n.connections.head?
    else
      -- An old source that is no longer in the set is forgotten.
      let source := n.sync.source.filter (· ∈ n.connections)
      let start := match source with
        | some s => n.connections.idxOf s + 1
        | none => 0
      ((n.connections.rotate start).find? n.current).or source

def requestSyncBlocks (c : ConnectionId) (start stop : ℕ) : Node :=
  n.update c fun c =>
    c.enqueue ext.pack (.syncRequest ⟨UInt32.ofNat start, UInt32.ofNat stop⟩) true

/-- The blocks that are requested next, at most up to the known irreversible one. -/
def requestRange (source : ConnectionId) : Node :=
  let start := n.sync.syncNextExpectedNum
  let stop := min (start + n.sync.syncReqSpan - 1) n.sync.syncKnownLibNum
  if n.sync.syncLastRequestedNum ≠ n.sync.syncKnownLibNum ∧ 0 < stop ∧ start ≤ stop then
    let n := n.requestSyncBlocks ext source start stop
    { n with sync := { n.sync with syncLastRequestedNum := stop } }
  else n

def requestNextChunk (conn : Option ConnectionId) : Node :=
  if n.chain.forkDbHeadBlockNum < n.sync.syncLastRequestedNum ∧
      (n.sync.source.any n.current) then n
  else
    let n := { n with sync := { n.sync with source := n.selectSource conn } }
    match n.sync.source.filter n.current with
    | some source => n.requestRange ext source
    | none => { n with sync := { n.sync with
        syncKnownLibNum := n.chain.lastIrreversibleBlockNum
        syncLastRequestedNum := 0
        state := .inSync } }

def resetLibNum (c : ConnectionId) : Node :=
  let n := if n.sync.state = .inSync then { n with sync := { n.sync with source := none } } else n
  if n.current c then
    { n with sync := { n.sync with
      syncKnownLibNum := max n.sync.syncKnownLibNum
        (n.conn c).lastHandshakeRecv.lastIrreversibleBlockNum.toNat } }
  else if some c = n.sync.source then
    { n with sync := { n.sync with syncLastRequestedNum := 0 } }.requestNextChunk ext none
  else n

def close (c : ConnectionId) : Node := (n.update c Connection.close).resetLibNum ext c

/-- The queued message is what closes a connection whose socket is closed, if no write is
in progress. -/
def enqueue (c : ConnectionId) (m : NetMessage) : Node :=
  let dead := (n.conn c).outQueue = [] ∧ (n.conn c).socket.isOpen = false
  let n := n.update c fun c => c.enqueue ext.pack m true
  if dead then n.resetLibNum ext c else n

def cancelSync (c : ConnectionId) (reason : GoAwayReason) : Node :=
  let n := n.update c Connection.flushQueues
  if reason = .validation ∨ reason = .fatalOther then
    (n.update c fun c => { c with noRetry := reason }).enqueue ext c (.goAway { reason := reason })
  else n.enqueue ext c (.syncRequest ⟨0, 0⟩)

end Requests

section Handshakes

variable (cfg : Config) (ext : Externals) (n : Node)

def sendHandshake (c : ConnectionId) : Node :=
  let count := (n.conn c).sentHandshakeCount + 1
  let hello := { n.populate cfg ext (n.conn c).lastHandshakeSent with generation := count }
  let n := n.update c fun c => { c with lastHandshakeSent := hello, sentHandshakeCount := count }
  n.enqueue ext c (.handshake hello)

def sendHandshakes : Node :=
  n.connections.foldl (fun n c => if n.current c then n.sendHandshake cfg ext c else n) n

end Handshakes

section Operations

variable (cfg : Config) (ext : Externals) (n : Node)

def setState (state : Stages) : Node := { n with sync := { n.sync with state := state } }

def isActive (c : ConnectionId) : Bool :=
  if n.sync.state = .headCatchup then
    (n.conn c).forkHead ≠ 0 ∧ (n.conn c).forkHeadNum.toNat < n.chain.forkDbHeadBlockNum
  else n.sync.state ≠ .inSync

def syncRequired : Bool :=
  n.sync.syncLastRequestedNum < n.sync.syncKnownLibNum ∨
    n.chain.forkDbHeadBlockNum < n.sync.syncLastRequestedNum

def startSync (c : ConnectionId) (target : ℕ) : Node :=
  let n := { n with sync := { n.sync with
    syncKnownLibNum := max n.sync.syncKnownLibNum target } }
  if n.syncRequired then
    let n := if n.sync.state = .inSync then
        { n with sync := { n.sync with
          state := .libCatchup
          syncNextExpectedNum := n.chain.lastIrreversibleBlockNum + 1 } }
      else n
    n.requestNextChunk ext (some c)
  else n

def reassignFetch (c : ConnectionId) (reason : GoAwayReason) : Node :=
  if some c = n.sync.source then
    let n := n.cancelSync ext c reason
    { n with sync := { n.sync with syncLastRequestedNum := 0 } }.requestNextChunk ext none
  else n

/-- Only the first connection of the set is looked at. -/
def verifyCatchup (c : ConnectionId) (num : UInt32) (id : BlockId) : Node :=
  let known := n.connections.head?.any fun cc =>
    (n.conn cc).forkHead = id || num < (n.conn cc).forkHeadNum
  if known then
    (n.update c fun c => { c with forkHead := 0, forkHeadNum := 0 }).enqueue ext c (.request {})
  else
    let n := n.update c fun c => { c with forkHead := id, forkHeadNum := num }
    if n.sync.state = .libCatchup then n
    else (n.setState .headCatchup).enqueue ext c (.request { reqBlocks := { mode := .catchUp } })

def recvHandshake (c : ConnectionId) (msg : HandshakeMessage) : Node :=
  let libNum := n.chain.lastIrreversibleBlockNum
  let peerLib := msg.lastIrreversibleBlockNum.toNat
  let n := (n.resetLibNum ext c).update c fun c => { c with syncing := false }
  let head := n.chain.forkDbHeadBlockNum
  if n.chain.forkDbHeadBlockId = msg.headId then
    n.enqueue ext c
      (.notice { knownTrx := { mode := .catchUp, pending := UInt32.ofNat n.localTxns.length } })
  else if head < peerLib then
    if (n.conn c).protocolVersion < protoExplicitSync then n.startSync ext c peerLib else n
  else if msg.headNum.toNat < libNum then
    let n := if 1 < msg.generation ∨ protoBase < (n.conn c).protocolVersion then
        n.enqueue ext c (.notice {
          knownTrx := { mode := .lastIrrCatchUp, pending := UInt32.ofNat libNum }
          knownBlocks := { mode := .lastIrrCatchUp, pending := UInt32.ofNat head } })
      else n
    n.update c fun c => { c with syncing := true }
  else if head ≤ msg.headNum.toNat then n.verifyCatchup ext c msg.headNum msg.headId
  else
    let n := if 1 < msg.generation ∨ protoBase < (n.conn c).protocolVersion then
        n.enqueue ext c (.notice { knownBlocks :=
          { mode := .catchUp, pending := UInt32.ofNat head, ids := [n.chain.forkDbHeadBlockId] } })
      else n
    n.update c fun c => { c with syncing := true }

def recvNotice (c : ConnectionId) (msg : NoticeMessage) : Node :=
  if msg.knownBlocks.mode = .catchUp then
    match msg.knownBlocks.ids.getLast? with
    | none => n
    | some id => n.verifyCatchup ext c msg.knownBlocks.pending id
  else
    let n := n.update c fun c => { c with
      lastHandshakeRecv := { c.lastHandshakeRecv with
        lastIrreversibleBlockNum := msg.knownTrx.pending } }
    (n.resetLibNum ext c).startSync ext c msg.knownBlocks.pending.toNat

def rejectedBlock (c : ConnectionId) : Node :=
  if n.sync.state ≠ .inSync then
    let n := { n with sync := { n.sync with syncLastRequestedNum := 0, source := none } }
    ((n.close ext c).setState .inSync).sendHandshakes cfg ext
  else n

/-- The walk over the connections of a head catch-up: what a connection has reached is
struck off `c`, whichever it is. -/
def recvHeadBlock (c : ConnectionId) (id : BlockId) (num : UInt32) : Node :=
  let n := (n.setState .inSync)
  let n := { n with sync := { n.sync with source := none } }
  n.connections.foldl (fun n cp =>
    if (n.conn cp).forkHead = 0 then n
    else if (n.conn cp).forkHead = id ∨ (n.conn cp).forkHeadNum < num then
      n.update c fun c => { c with forkHead := 0, forkHeadNum := 0 }
    else n.setState .headCatchup) n

def recvBlock (c : ConnectionId) (id : BlockId) (num : UInt32) : Node :=
  match n.sync.state with
  | .libCatchup =>
    if num.toNat ≠ n.sync.syncNextExpectedNum then n.close ext c
    else
      let n := { n with sync := { n.sync with syncNextExpectedNum := num.toNat + 1 } }
      if num.toNat = n.sync.syncKnownLibNum then (n.setState .inSync).sendHandshakes cfg ext
      else if num.toNat = n.sync.syncLastRequestedNum then n.requestNextChunk ext none
      else n
  | .headCatchup => n.recvHeadBlock c id num
  | .inSync => n

end Operations

end Node

end Xidata.Net
