import Mathlib.Algebra.BigOperators.Group.Finset.Basic
import Mathlib.Data.List.Sort
import Xidata.Library.Rollback
import Xidata.Net.Handlers

/-!
What a node passes on: the transactions and blocks it has received and relays, with the
peers they came from.  A local transaction is kept until its time is up or its block is
irreversible, and counts the writes by which it is being sent on request.  What the sync
manager and the handshakes send comes as steps of their own, and so do the peers that a
transaction is not known to.
-/

namespace Xidata.Net

attribute [local instance] lawfulBEq_sha256

/-- `trueBlock` keeps the number of the block while `requests` writes are in flight. -/
structure NodeTransactionState where
  id : TransactionId
  expires : UInt32
  serializedTxn : Bytes
  blockNum : UInt32 := 0
  trueBlock : UInt32 := 0
  requests : UInt16 := 0
  deriving DecidableEq

namespace NodeTransactionState

def updateInFlight (nts : NodeTransactionState) (incr : ℤ) : NodeTransactionState :=
  let nts := { nts with expires := nts.expires + UInt32.ofInt (incr * 60) }
  let nts := if nts.requests = 0 then { nts with trueBlock := nts.blockNum, blockNum := 0 } else nts
  let nts := { nts with requests := nts.requests + UInt16.ofInt incr }
  if nts.requests = 0 then { nts with blockNum := nts.trueBlock } else nts

def incrInFlight (nts : NodeTransactionState) : NodeTransactionState := nts.updateInFlight 1

def decrInFlight (nts : NodeTransactionState) : NodeTransactionState := nts.updateInFlight (-1)

def updateBlockNum (nts : NodeTransactionState) (newBnum : UInt32) : NodeTransactionState :=
  if nts.requests ≠ 0 then { nts with trueBlock := newBnum } else { nts with blockNum := newBnum }

end NodeTransactionState

/-- The serialization, and what is read of a transaction and of a block. -/
structure Contents where
  pack : NetMessage → Bytes
  expiration : PackedTransaction → UInt32
  transactions : SignedBlock → List TransactionId

/-- `connections` is the set in the order in which it is walked; an object that has left it
exists as long as something refers to it.  The chain has not answered yet for the
transactions in `awaited`. -/
structure Relay where
  objects : Finset ConnectionId := ∅
  connections : List ConnectionId := []
  conn : ConnectionId → Connection := fun _ => {}
  localTxns : List NodeTransactionState := []
  reqTrx : List TransactionId := []
  receivedBlocks : List (BlockId × ConnectionId) := []
  receivedTransactions : List (TransactionId × ConnectionId) := []
  awaited : List PackedTransaction := []

/-- What happens on one connection. -/
inductive PeerEvent
  /-- The connection is dialed, on the object there is. -/
  | dial
  | connectionMonitor
  | destroy
  | enqueue (msg : NetMessage) (triggerSend : Bool)
  | syncRequest (fetchBlockByNumber : UInt32 → Option SignedBlock) (msg : SyncRequestMessage)
  | cancelSync (reason : GoAwayReason)
  | goAway (msg : GoAwayMessage)
  | close
  | writeDone (fetchBlockByNumber : UInt32 → Option SignedBlock) (k : ℕ) (failed : Bool)
  /-- The part of a request that asks for transactions. -/
  | request (reqTrx : SelectIds)
  /-- A transaction in read-only mode or from the source of a sync is ignored. -/
  | packedTransaction (msg : PackedTransaction) (ignored : Bool)
  /-- The chain knows the block, or takes it: `signalled` are the blocks for which it signals
  meanwhile that they are accepted. -/
  | signedBlock (msg : SignedBlock) (known : Bool) (outcome : AcceptOutcome)
      (signalled : List SignedBlock)

inductive RelayEvent
  | accept (c : ConnectionId)
  | connect (c : ConnectionId) (endpoint : String)
  | on (c : ConnectionId) (e : PeerEvent)
  /-- The callback of `accept_transaction`. -/
  | verdict (trx : PackedTransaction) (accepted : Bool) (unknownTo : List ConnectionId)
  | transactionAck (trx : PackedTransaction) (accepted : Bool) (unknownTo : List ConnectionId)
  | acceptedBlock (block : SignedBlock)
  | expireTxns (now lib : UInt32)

namespace Relay

def update (n : Relay) (c : ConnectionId) (f : Connection → Connection) : Relay :=
  { n with conn := Function.update n.conn c (f (n.conn c)) }

def findTxn (n : Relay) (id : TransactionId) : Option NodeTransactionState :=
  n.localTxns.find? fun nts => nts.id = id

def modifyTxn (n : Relay) (id : TransactionId)
    (f : NodeTransactionState → NodeTransactionState) : Relay :=
  { n with localTxns := n.localTxns.map fun nts => if nts.id = id then f nts else nts }

/-- `local_txns` is ordered by the identifiers. -/
def insertTxn (n : Relay) (nts : NodeTransactionState) : Relay :=
  { n with localTxns := n.localTxns.orderedInsert (fun a b => a.id ≤ b.id) nts }

/-! ### Transactions on request -/

def sendTxn (n : Relay) (c : ConnectionId) (id : TransactionId) (serializedTxn : Bytes) : Relay :=
  (n.modifyTxn id NodeTransactionState.incrInFlight).update c fun conn =>
    conn.queueWrite serializedTxn true (.decrInFlight id)

def txnSendPending (n : Relay) (c : ConnectionId) (ids : List TransactionId) : Relay :=
  n.localTxns.foldl (fun n tx =>
    if tx.serializedTxn ≠ [] ∧ tx.blockNum = 0 ∧ tx.id ∉ ids then n.sendTxn c tx.id tx.serializedTxn
    else n) n

def txnSend (n : Relay) (c : ConnectionId) (ids : List TransactionId) : Relay :=
  ids.foldl (fun n t =>
    match n.findTxn t with
    | some tx => if tx.serializedTxn ≠ [] then n.sendTxn c t tx.serializedTxn else n
    | none => n) n

/-- The transactions of `handle_message` of a request. -/
def handleRequest (n : Relay) (c : ConnectionId) (reqTrx : SelectIds) : Relay :=
  match reqTrx.mode with
  | .catchUp => n.txnSendPending c reqTrx.ids
  | .normal => n.txnSend c reqTrx.ids
  | _ => n

/-! ### The dispatcher -/

section Dispatcher

variable (content : Contents)

def enqueue (n : Relay) (c : ConnectionId) (msg : NetMessage) : Relay :=
  n.update c fun conn => conn.enqueue content.pack msg true

def sendAll (n : Relay) (msg : NetMessage) (verify : ConnectionId → Bool) : Relay :=
  n.connections.foldl (fun n c =>
    if (n.conn c).current && verify c then n.enqueue content c msg else n) n

/-- Large messages are not announced instead of sent: `large_msg_notify` is off. -/
def bcastBlock (n : Relay) (bsum : SignedBlock) : Relay :=
  let skips := (n.receivedBlocks.filter fun p => p.1 = bsum.id).map Prod.snd
  let n := { n with receivedBlocks := n.receivedBlocks.filter fun p => p.1 ≠ bsum.id }
  n.sendAll content (.signedBlock bsum) fun c => c ∉ skips

/-- Only a broadcast takes the entry out again: nothing calls `rejected_block`. -/
def recvBlock (n : Relay) (c : ConnectionId) (id : BlockId) : Relay :=
  { n with receivedBlocks := n.receivedBlocks ++ [(id, c)] }

def bcastTransaction (n : Relay) (trx : PackedTransaction) (unknownTo : List ConnectionId) : Relay :=
  let skips := (n.receivedTransactions.filter fun p => p.1 = trx.id).map Prod.snd
  let n := { n with
    receivedTransactions := n.receivedTransactions.filter fun p => p.1 ≠ trx.id
    reqTrx := n.reqTrx.erase trx.id }
  if (n.findTxn trx.id).isSome then n
  else
    let payload := content.pack (.packedTransaction trx)
    let buff := ByteCode.littleEndian 4 payload.length ++ payload
    let n := n.insertTxn { id := trx.id, expires := content.expiration trx, serializedTxn := buff }
    n.sendAll content (.packedTransaction trx) fun c => c ∉ skips && c ∈ unknownTo

def recvTransaction (n : Relay) (c : ConnectionId) (id : TransactionId) : Relay :=
  { n with receivedTransactions := n.receivedTransactions ++ [(id, c)] }

def rejectedTransaction (n : Relay) (id : TransactionId) : Relay :=
  { n with receivedTransactions := n.receivedTransactions.filter fun p => p.1 ≠ id }

/-! ### Handlers -/

def cancelSync (n : Relay) (c : ConnectionId) (reason : GoAwayReason) : Relay :=
  let n := n.update c Connection.flushQueues
  if reason = .validation ∨ reason = .fatalOther then
    (n.update c fun conn => { conn with noRetry := reason }).enqueue content c
      (.goAway { reason := reason })
  else n.enqueue content c (.syncRequest ⟨0, 0⟩)

def handleGoAway (n : Relay) (c : ConnectionId) (msg : GoAwayMessage) : Relay :=
  n.update c fun conn =>
    let conn := { conn with noRetry := msg.reason }
    let conn := if msg.reason = .duplicate then { conn with nodeId := msg.nodeId } else conn
    conn.flushQueues.close

/-- The callback of one write. -/
def call (n : Relay) (m : QueuedWrite) : Relay :=
  match m.callback with
  | .sent _ => n
  | .decrInFlight id => n.modifyTxn id NodeTransactionState.decrInFlight

/-- The handler of a write that is reported back. -/
def writeDone (n : Relay) (c : ConnectionId) (fetch : UInt32 → Option SignedBlock) (k : ℕ)
    (failed : Bool) : Relay :=
  ((n.conn c).outQueue.foldl call n).update c fun conn => conn.writeDone content.pack fetch k failed

def handlePackedTransaction (n : Relay) (c : ConnectionId) (msg : PackedTransaction)
    (ignored : Bool) : Relay :=
  if ignored then n
  else if (n.findTxn msg.id).isSome then n
  else { n.recvTransaction c msg.id with awaited := n.awaited ++ [msg] }

def verdict (n : Relay) (trx : PackedTransaction) (accepted : Bool)
    (unknownTo : List ConnectionId) : Relay :=
  if accepted then n.bcastTransaction content trx unknownTo else n.rejectedTransaction trx.id

def updateBlockNums (n : Relay) (msg : SignedBlock) : Relay :=
  (content.transactions msg).foldl
    (fun n id => n.modifyTxn id fun nts => nts.updateBlockNum msg.blockNum) n

def handleSignedBlock (n : Relay) (c : ConnectionId) (msg : SignedBlock) (known : Bool)
    (outcome : AcceptOutcome) (signalled : List SignedBlock) : Relay :=
  if known then n
  else
    let n := n.recvBlock c msg.id
    let n := signalled.foldl (bcastBlock content) n
    if Node.AcceptOutcome.reason outcome = .noReason then n.updateBlockNums content msg else n

def expireTxns (n : Relay) (now lib : UInt32) : Relay :=
  let unexpired := n.localTxns.filter fun nts => now < nts.expires
  { n with localTxns := unexpired.filter fun nts => ¬ (1 ≤ nts.blockNum ∧ nts.blockNum ≤ lib) }

/-! ### Steps -/

def add (n : Relay) (c : ConnectionId) (conn : Connection) : Relay :=
  { n with
    objects := insert c n.objects
    connections := n.connections ++ [c]
    conn := Function.update n.conn c conn }

def peerStep (n : Relay) (c : ConnectionId) : PeerEvent → Except Unit Relay
  | .dial =>
    if (n.conn c).socket.isOpen then .error ()
    else .ok (n.update c fun conn =>
      { conn with socket := { conn.socket with isOpen := true }, connecting := true })
  | .connectionMonitor =>
    if (n.conn c).socket.isOpen || (n.conn c).connecting || (n.conn c).peerAddr ≠ "" then .error ()
    else .ok { n with connections := n.connections.erase c }
  | .destroy =>
    if c ∈ n.connections then .error () else .ok { n with objects := n.objects.erase c }
  | .enqueue msg triggerSend =>
    .ok (n.update c fun conn => conn.enqueue content.pack msg triggerSend)
  | .syncRequest fetch msg =>
    .ok (n.update c fun conn => conn.handleSyncRequest content.pack fetch msg)
  | .cancelSync reason => .ok (n.cancelSync content c reason)
  | .goAway msg => .ok (n.handleGoAway c msg)
  | .close => .ok (n.update c Connection.close)
  | .writeDone fetch k failed =>
    if k < (n.conn c).socket.outstanding.length then .ok (n.writeDone content c fetch k failed)
    else .error ()
  | .request reqTrx => .ok (n.handleRequest c reqTrx)
  | .packedTransaction msg ignored => .ok (n.handlePackedTransaction c msg ignored)
  | .signedBlock msg known outcome signalled =>
    .ok (n.handleSignedBlock content c msg known outcome signalled)

def step (n : Relay) : RelayEvent → Except Unit Relay
  | .accept c => if c ∈ n.objects then .error () else .ok (n.add c .ofSocket)
  | .connect c endpoint =>
    if c ∈ n.objects then .error () else .ok (n.add c (.ofEndpoint endpoint))
  | .on c e => if c ∈ n.objects then n.peerStep content c e else .error ()
  | .verdict trx accepted unknownTo =>
    if trx ∈ n.awaited then
      .ok ({ n with awaited := n.awaited.erase trx }.verdict content trx accepted unknownTo)
    else .error ()
  | .transactionAck trx accepted unknownTo => .ok (n.verdict content trx accepted unknownTo)
  | .acceptedBlock block => .ok (n.bcastBlock content block)
  | .expireTxns now lib => .ok (n.expireTxns now lib)

end Dispatcher

/-- What the events on one connection do, and when they can come. -/
inductive PeerTakes (content : Contents) (n : Relay) (c : ConnectionId) : PeerEvent → Relay → Prop
  | dial (hclosed : (n.conn c).socket.isOpen = false) :
      PeerTakes content n c .dial (n.update c fun conn =>
        { conn with socket := { conn.socket with isOpen := true }, connecting := true })
  | connectionMonitor
      (hidle : ¬ ((n.conn c).socket.isOpen || (n.conn c).connecting || (n.conn c).peerAddr ≠ "")) :
      PeerTakes content n c .connectionMonitor { n with connections := n.connections.erase c }
  | destroy (hgone : c ∉ n.connections) :
      PeerTakes content n c .destroy { n with objects := n.objects.erase c }
  | enqueue (msg : NetMessage) (triggerSend : Bool) :
      PeerTakes content n c (.enqueue msg triggerSend)
        (n.update c fun conn => conn.enqueue content.pack msg triggerSend)
  | syncRequest (fetch : UInt32 → Option SignedBlock) (msg : SyncRequestMessage) :
      PeerTakes content n c (.syncRequest fetch msg)
        (n.update c fun conn => conn.handleSyncRequest content.pack fetch msg)
  | cancelSync (reason : GoAwayReason) :
      PeerTakes content n c (.cancelSync reason) (n.cancelSync content c reason)
  | goAway (msg : GoAwayMessage) : PeerTakes content n c (.goAway msg) (n.handleGoAway c msg)
  | close : PeerTakes content n c .close (n.update c Connection.close)
  | writeDone (fetch : UInt32 → Option SignedBlock) (k : ℕ) (failed : Bool)
      (hwritten : k < (n.conn c).socket.outstanding.length) :
      PeerTakes content n c (.writeDone fetch k failed) (n.writeDone content c fetch k failed)
  | request (reqTrx : SelectIds) :
      PeerTakes content n c (.request reqTrx) (n.handleRequest c reqTrx)
  | packedTransaction (msg : PackedTransaction) (ignored : Bool) :
      PeerTakes content n c (.packedTransaction msg ignored) (n.handlePackedTransaction c msg ignored)
  | signedBlock (msg : SignedBlock) (known : Bool) (outcome : AcceptOutcome)
      (signalled : List SignedBlock) :
      PeerTakes content n c (.signedBlock msg known outcome signalled)
        (n.handleSignedBlock content c msg known outcome signalled)

theorem peerTakes_of_peerStep {content : Contents} {n n' : Relay} {c : ConnectionId}
    {e : PeerEvent} (hstep : n.peerStep content c e = .ok n') : PeerTakes content n c e n' := by
  cases e with
  | dial =>
      obtain ⟨hopen, hstep⟩ := Rollback.ite_error_eq_ok.mp hstep
      exact Except.ok.inj hstep ▸ .dial (Bool.eq_false_iff.mpr hopen)
  | connectionMonitor =>
      obtain ⟨hidle, hstep⟩ := Rollback.ite_error_eq_ok.mp hstep
      exact Except.ok.inj hstep ▸ .connectionMonitor hidle
  | destroy =>
      obtain ⟨hgone, hstep⟩ := Rollback.ite_error_eq_ok.mp hstep
      exact Except.ok.inj hstep ▸ .destroy hgone
  | enqueue msg triggerSend => exact Except.ok.inj hstep ▸ .enqueue msg triggerSend
  | syncRequest fetch msg => exact Except.ok.inj hstep ▸ .syncRequest fetch msg
  | cancelSync reason => exact Except.ok.inj hstep ▸ .cancelSync reason
  | goAway msg => exact Except.ok.inj hstep ▸ .goAway msg
  | close => exact Except.ok.inj hstep ▸ .close
  | writeDone fetch k failed =>
      obtain ⟨hwritten, rfl⟩ := Rollback.ite_ok_eq_ok.mp hstep
      exact .writeDone fetch k failed hwritten
  | request reqTrx => exact Except.ok.inj hstep ▸ .request reqTrx
  | packedTransaction msg ignored => exact Except.ok.inj hstep ▸ .packedTransaction msg ignored
  | signedBlock msg known outcome signalled =>
      exact Except.ok.inj hstep ▸ .signedBlock msg known outcome signalled

/-- What the dispatcher does with each event, and when the event can come. -/
inductive Takes (content : Contents) (n : Relay) : RelayEvent → Relay → Prop
  | accept (c : ConnectionId) (hnew : c ∉ n.objects) :
      Takes content n (.accept c) (n.add c .ofSocket)
  | connect (c : ConnectionId) (endpoint : String) (hnew : c ∉ n.objects) :
      Takes content n (.connect c endpoint) (n.add c (.ofEndpoint endpoint))
  | on (c : ConnectionId) (e : PeerEvent) {n' : Relay} (hc : c ∈ n.objects)
      (htakes : PeerTakes content n c e n') : Takes content n (.on c e) n'
  | verdict (trx : PackedTransaction) (accepted : Bool) (unknownTo : List ConnectionId)
      (hawaited : trx ∈ n.awaited) :
      Takes content n (.verdict trx accepted unknownTo)
        ({ n with awaited := n.awaited.erase trx }.verdict content trx accepted unknownTo)
  | transactionAck (trx : PackedTransaction) (accepted : Bool) (unknownTo : List ConnectionId) :
      Takes content n (.transactionAck trx accepted unknownTo)
        (n.verdict content trx accepted unknownTo)
  | acceptedBlock (block : SignedBlock) :
      Takes content n (.acceptedBlock block) (n.bcastBlock content block)
  | expireTxns (now lib : UInt32) : Takes content n (.expireTxns now lib) (n.expireTxns now lib)

theorem takes_of_step {content : Contents} {n n' : Relay} {e : RelayEvent}
    (hstep : n.step content e = .ok n') : Takes content n e n' := by
  cases e with
  | accept c =>
      obtain ⟨hnew, hstep⟩ := Rollback.ite_error_eq_ok.mp hstep
      exact Except.ok.inj hstep ▸ .accept c hnew
  | connect c endpoint =>
      obtain ⟨hnew, hstep⟩ := Rollback.ite_error_eq_ok.mp hstep
      exact Except.ok.inj hstep ▸ .connect c endpoint hnew
  | on c e =>
      rw [step] at hstep
      split at hstep
      · next hc => exact .on c e hc (peerTakes_of_peerStep hstep)
      · cases hstep
  | verdict trx accepted unknownTo =>
      obtain ⟨hawaited, rfl⟩ := Rollback.ite_ok_eq_ok.mp hstep
      exact .verdict trx accepted unknownTo hawaited
  | transactionAck trx accepted unknownTo =>
      exact Except.ok.inj hstep ▸ .transactionAck trx accepted unknownTo
  | acceptedBlock block => exact Except.ok.inj hstep ▸ .acceptedBlock block
  | expireTxns now lib => exact Except.ok.inj hstep ▸ .expireTxns now lib

/-! ### What an update leaves alone -/

variable {n : Relay} {c d : ConnectionId} {f : Connection → Connection}

@[simp] theorem update_conn_self (n : Relay) (c : ConnectionId) (f : Connection → Connection) :
    (n.update c f).conn c = f (n.conn c) := Function.update_self c _ n.conn

theorem update_conn_of_ne (h : d ≠ c) : (n.update c f).conn d = n.conn d :=
  Function.update_of_ne h _ n.conn

@[simp] theorem update_objects (n : Relay) (c : ConnectionId) (f : Connection → Connection) :
    (n.update c f).objects = n.objects := rfl

/-- A broadcast is messages to some of the peers, one after the other, each on an open
socket. -/
theorem sendAll_induction {content : Contents} {I : Relay → Prop} {msg : NetMessage}
    (hstep : ∀ n c, I n → (n.conn c).socket.isOpen = true → I (n.enqueue content c msg))
    (verify : ConnectionId → Bool) (h : I n) : I (n.sendAll content msg verify) := by
  unfold sendAll
  generalize n.connections = cs
  induction cs generalizing n with
  | nil => exact h
  | cons c cs ih =>
      rw [List.foldl_cons]
      split
      · rename_i hcurrent
        refine ih (hstep n c h ?_)
        rw [Bool.and_eq_true, Connection.current, Bool.and_eq_true, Connection.connected,
          Bool.and_eq_true] at hcurrent
        exact hcurrent.1.1.1
      · exact ih h

end Relay

end Xidata.Net
