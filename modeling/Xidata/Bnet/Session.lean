import Mathlib.Data.List.MinMax
import Mathlib.Data.List.Sort
import Mathlib.Order.WithBot
import Xidata.Library.Rollback

/-!
A session of the bnet plugin: what it knows that the peer has, the position on the local
chain up to which it has sent blocks, and which message it sends when the socket is free.
Each event runs at one time of the clock.  `sent` is what has been given to the socket and
`heard` what has been read from it; a session that has closed its socket takes part in
nothing more.
-/

namespace Xidata.Bnet

abbrev Sha256 := BitVec 256
abbrev BlockId := Sha256
abbrev TransactionId := Sha256
abbrev PublicKey := List UInt8

theorem lawfulBEq_sha256 : LawfulBEq Sha256 := inferInstance

/-- Microseconds. -/
abbrev Time := ℕ

def seconds (n : ℕ) : Time := n * 1000000

/-- The id is the digest of the header, which has the id of the block before.
`transactions` are the packed transactions of the receipts. -/
structure SignedBlock where
  id : BlockId
  timestamp : Time := 0
  transactions : List TransactionId := []
  deriving DecidableEq

structure PackedTransaction where
  id : TransactionId
  expiration : Time
  deriving DecidableEq

structure Hello where
  peerId : PublicKey := []
  protocolVersion : String := "1.0.1"
  chainId : Sha256 := 0
  requestTransactions : Bool := false
  lastIrrBlockNum : UInt32 := 0
  pendingBlockIds : List BlockId := []
  deriving DecidableEq

structure Ping where
  sent : Time := 0
  code : Sha256 := 0
  lib : UInt32 := 0
  deriving DecidableEq

/-- The tags of the extensions come with a hello; `malformed` is what cannot be unpacked. -/
inductive BnetMessage
  | hello (hi : Hello) (extensions : List ℕ)
  | trxNotice (signedTrxId : List Sha256)
  | blockNotice (blockIds : List BlockId)
  | signedBlock (b : Option SignedBlock)
  | packedTransaction (p : Option PackedTransaction)
  | ping (p : Ping)
  | pong (sent : Time) (code : Sha256)
  | malformed
  deriving DecidableEq

/-- What the chain, the hash functions and the configuration give. -/
structure Externals where
  numFromId : BlockId → UInt32
  previous : BlockId → BlockId
  hash : Time → Sha256
  chainId : Sha256 := 0
  localPeerId : PublicKey := [0]
  readOnly : Bool := false
  requestTrx : Bool := true
  followIrreversible : Bool := false

inductive SessionState
  | hello | sending | idle
  deriving DecidableEq

structure BlockStatus where
  id : BlockId
  knownByPeer : Bool
  receivedFromPeer : Bool
  deriving DecidableEq

/-- `received` is the infinite future once the peer knows the transaction. -/
structure TransactionStatus where
  received : WithTop Time
  expired : Time
  id : TransactionId
  trx : Option PackedTransaction := none
  deriving DecidableEq

namespace TransactionStatus

def markKnownByPeer (stat : TransactionStatus) : TransactionStatus :=
  { stat with received := ⊤, trx := none }

def knownByPeer (stat : TransactionStatus) : Bool := stat.received = ⊤

end TransactionStatus

/-- The tables are in the order of insertion.  `fetching` is the number of the block that has
been asked for. -/
structure Session where
  blockStatus : List BlockStatus := []
  transactionStatus : List TransactionStatus := []
  localLib : UInt32 := 0
  localLibId : BlockId := 0
  localHeadBlockNum : UInt32 := 0
  localHeadBlockId : BlockId := 0
  remotePeerId : PublicKey := []
  remoteLib : UInt32 := 0
  remoteRequestTrx : Bool := false
  remoteRequestIrreversibleOnly : Bool := false
  lastSentBlockNum : UInt32 := 0
  lastSentBlockId : BlockId := 0
  recvRemoteHello : Bool := false
  sentRemoteHello : Bool := false
  lastRecvPing : Ping := {}
  lastSentPing : Ping := {}
  state : SessionState := .hello
  outBuffer : Option BnetMessage := none
  blockHeaderNotices : List BlockId := []
  fetching : Option UInt32 := none
  closed : Bool := false
  sent : List BnetMessage := []
  heard : List BnetMessage := []
  deriving DecidableEq

def maxBlockStatusRange : UInt32 := 2048

namespace Session

def findBlock (s : Session) (id : BlockId) : Option BlockStatus :=
  s.blockStatus.find? fun item => item.id = id

def findTrx (s : Session) (id : TransactionId) : Option TransactionStatus :=
  s.transactionStatus.find? fun stat => stat.id = id

def modifyTrx (s : Session) (id : TransactionId) (f : TransactionStatus → TransactionStatus) :
    Session :=
  { s with transactionStatus := s.transactionStatus.map fun stat => if stat.id = id then f stat else stat }

/-- A flat set. -/
def insertNotice (s : Session) (id : BlockId) : Session :=
  if id ∈ s.blockHeaderNotices then s
  else { s with blockHeaderNotices := s.blockHeaderNotices.orderedInsert (· ≤ ·) id }

def isKnownByPeer (s : Session) (id : BlockId) : Bool := (s.findBlock id).any BlockStatus.knownByPeer

def doGoodbye (s : Session) : Session := { s with closed := true }

def send (s : Session) (msg : BnetMessage) : Session :=
  { s with state := .sending, outBuffer := some msg, sent := s.sent ++ [msg] }

section Handlers

variable (ext : Externals) (now : Time)

/-- A new block is only tracked within the range above what the peer and the local chain
have. -/
def markBlockStatus (s : Session) (id : BlockId) (knownByPeer recvFromPeer : Bool) : Session :=
  match s.findBlock id with
  | none =>
    let minBlockNum := min s.localLib s.lastSentBlockNum
    let maxBlockNum := minBlockNum + maxBlockStatusRange
    let blockNum := ext.numFromId id
    if minBlockNum < blockNum ∧ blockNum < maxBlockNum ∧
        s.blockStatus.length < maxBlockStatusRange.toNat then
      { s with blockStatus := s.blockStatus ++ [⟨id, knownByPeer, recvFromPeer⟩] }
    else s
  | some _ =>
    { s with blockStatus := s.blockStatus.map fun item =>
        if item.id = id then
          { item with
            knownByPeer := knownByPeer
            receivedFromPeer := recvFromPeer || item.receivedFromPeer }
        else item }

/-- What has expired comes first in the index by expiry and is erased one after the other. -/
def purgeTransactionCache (s : Session) : Session :=
  { s with transactionStatus := s.transactionStatus.filter fun stat => now ≤ stat.expired }

def clearExpiredTrx (s : Session) : Session :=
  { s with transactionStatus := s.transactionStatus.filter fun stat => now ≤ stat.expired }

def markTransactionKnownByPeer (s : Session) (id : TransactionId) : Session :=
  match s.findTrx id with
  | some _ => s.modifyTrx id TransactionStatus.markKnownByPeer
  | none =>
    { s with transactionStatus := s.transactionStatus ++
        [{ received := ⊤, expired := now + seconds 5, id := id }] }

def markBlockTransactionsKnownByPeer (s : Session) (b : SignedBlock) : Session :=
  b.transactions.foldl (markTransactionKnownByPeer now) s

/-! ### Sending -/

def sendBlockNotice (s : Session) : Option Session :=
  if s.blockHeaderNotices = [] then none
  else some { s.send (.blockNotice s.blockHeaderNotices) with blockHeaderNotices := [] }

def sendPong (s : Session) : Option Session :=
  if s.lastRecvPing.code = 0 then none
  else some { s.send (.pong now s.lastRecvPing.code) with
    lastRecvPing := { s.lastRecvPing with code := 0 } }

/-- Three seconds after a ping nothing is sent until it has been answered. -/
def sendPing (s : Session) : Option Session :=
  if now < s.lastSentPing.sent + seconds 3 then none
  else if s.lastSentPing.code = 0 then
    let lastSentPing := { sent := now, code := ext.hash now, lib := s.localLib }
    some ({ s with lastSentPing := lastSentPing }.send (.ping lastSentPing))
  else some s

def sendNextBlock (s : Session) : Option Session :=
  if s.remoteRequestIrreversibleOnly ∧ s.lastSentBlockId = s.localLibId then none
  else if s.lastSentBlockId = s.localHeadBlockId then none
  else some { s with state := .sending, fetching := some (s.lastSentBlockNum + 1) }

def sendNextTrx (s : Session) : Option Session :=
  if !s.remoteRequestTrx then none
  else
    match s.transactionStatus.argmin TransactionStatus.received with
    | none => none
    | some start =>
      if start.knownByPeer then none
      else some ((s.modifyTrx start.id TransactionStatus.markKnownByPeer).send
        (.packedTransaction start.trx))

/-- The first of the messages that there is something to say of.  Without a local head the
position on the chain is not known. -/
def nextMessage (s : Session) : Option Session :=
  s.sendBlockNotice.or <| (s.sendPong now).or <| (s.sendPing ext now).or <|
    if s.localHeadBlockId = 0 then none else s.sendNextBlock.or s.sendNextTrx

def maybeSendNextMessage (s : Session) : Session :=
  if s.state = .sending then s
  else if s.outBuffer.isSome then s
  else if !s.recvRemoteHello || !s.sentRemoteHello then s
  else
    let s := s.clearExpiredTrx now
    (s.nextMessage ext now).getD s

/-! ### Events of the local chain -/

/-- The time that an entry is kept is only extended while the peer does not know it. -/
def onAcceptedTransaction (s : Session) (t : PackedTransaction) : Session :=
  match s.findTrx t.id with
  | some stat =>
    if !stat.knownByPeer then
      s.modifyTrx t.id fun stat => { stat with expired := min (now + seconds 5) t.expiration }
    else s
  | none =>
    let stat := { received := WithTop.some now, expired := now + seconds 5, id := t.id, trx := some t }
    { s with transactionStatus := s.transactionStatus ++ [stat] }.maybeSendNextMessage ext now

def onNewLib (s : Session) (b : SignedBlock) : Session :=
  let s := { s with localLib := ext.numFromId b.id, localLibId := b.id }
  let purgeTo := min s.localLib s.lastSentBlockNum
  let s := { s with blockStatus := s.blockStatus.filter fun item => purgeTo ≤ ext.numFromId item.id }
  let s :=
    if s.remoteRequestIrreversibleOnly then
      if (s.findBlock b.id).any BlockStatus.receivedFromPeer then s else s.insertNotice b.id
    else s
  s.maybeSendNextMessage ext now

def onBadBlock (s : Session) (b : SignedBlock) : Session :=
  if (s.findBlock b.id).any BlockStatus.receivedFromPeer then s.doGoodbye else s

def onAcceptedBlockHeader (s : Session) (b : SignedBlock) : Session :=
  if now < b.timestamp + seconds 6 then
    let itr := s.findBlock b.id
    let s :=
      if !s.remoteRequestIrreversibleOnly && !itr.any BlockStatus.receivedFromPeer then
        s.insertNotice b.id
      else s
    if itr.isNone then { s with blockStatus := s.blockStatus ++ [⟨b.id, false, false⟩] } else s
  else s

def onAcceptedBlock (s : Session) (b : SignedBlock) : Session :=
  let s := { s with localHeadBlockId := b.id, localHeadBlockNum := ext.numFromId b.id }
  let s :=
    if s.localHeadBlockNum < s.lastSentBlockNum then
      { s with lastSentBlockNum := s.localLib, lastSentBlockId := s.localLibId }
    else s
  let s := s.purgeTransactionCache now
  let s := { s with
    transactionStatus := s.transactionStatus.filter fun stat => stat.id ∉ b.transactions }
  s.maybeSendNextMessage ext now

/-! ### Callbacks -/

/-- The second half of `do_hello`, with the ids from the last irreversible block on. -/
def doHello (s : Session) (ids : List BlockId) (lib : UInt32) : Session :=
  let helloMsg : Hello :=
    { peerId := ext.localPeerId
      lastIrrBlockNum := lib
      pendingBlockIds := ids
      requestTransactions := ext.requestTrx
      chainId := ext.chainId }
  let s := { s with localLib := lib }
  let s := s.send (.hello helloMsg (if ext.followIrreversible then [0] else []))
  { s with sentRemoteHello := true }

def onAsyncGetBlock (s : Session) (nextblock : Option SignedBlock) : Session :=
  match nextblock with
  | none => { s with state := .idle }.maybeSendNextMessage ext now
  | some b =>
    -- the local chain has switched forks if the block does not follow the last one sent
    if ext.previous b.id ≠ s.lastSentBlockId ∧ !s.isKnownByPeer (ext.previous b.id) then
      { s with
        lastSentBlockId := s.localLibId
        lastSentBlockNum := s.localLib
        state := .idle }.maybeSendNextMessage ext now
    else if s.isKnownByPeer b.id then
      { s with
        lastSentBlockId := b.id
        lastSentBlockNum := ext.numFromId b.id
        state := .idle }.maybeSendNextMessage ext now
    else
      let s := s.markBlockStatus ext b.id true false
      let s := { s with lastSentBlockId := b.id, lastSentBlockNum := ext.numFromId b.id }
      let s := s.send (.signedBlock (some b))
      if now < b.timestamp + seconds 5 then s.markBlockTransactionsKnownByPeer now b else s

def onWrite (s : Session) (failed : Bool) : Session :=
  if failed then s.doGoodbye
  else { s with state := .idle, outBuffer := none }.maybeSendNextMessage ext now

/-! ### Messages of the peer -/

def onBlockNotice (s : Session) (blockIds : List BlockId) : Session :=
  blockIds.foldl (fun s id => s.markBlockStatus ext id true false) s

def onHello (s : Session) (hi : Hello) (extensions : List ℕ) : Session :=
  let s := { s with recvRemoteHello := true }
  if hi.chainId ≠ ext.chainId then s.doGoodbye
  else if hi.peerId = ext.localPeerId then s.doGoodbye
  else if ext.followIrreversible ∧ hi.protocolVersion ≤ "1.0.0" then s.doGoodbye
  else
    -- extensions with other tags are ignored
    let s :=
      if "1.0.1" ≤ hi.protocolVersion ∧ 0 ∈ extensions then
        { s with remoteRequestIrreversibleOnly := true }
      else s
    let s := { s with
      lastSentBlockNum := hi.lastIrrBlockNum
      remoteRequestTrx := hi.requestTransactions
      remotePeerId := hi.peerId
      remoteLib := hi.lastIrrBlockNum }
    hi.pendingBlockIds.foldl (fun s id => s.markBlockStatus ext id true false) s

def onPing (s : Session) (p : Ping) : Session := { s with lastRecvPing := p, remoteLib := p.lib }

def onPong (s : Session) (code : Sha256) : Session :=
  if code ≠ s.lastSentPing.code then s.doGoodbye
  else { s with lastSentPing := { s.lastSentPing with code := 0 } }

def onSignedBlock (s : Session) (b : SignedBlock) : Session :=
  (s.markBlockStatus ext b.id true true).markBlockTransactionsKnownByPeer now b

def onPackedTransaction (s : Session) (p : PackedTransaction) : Session :=
  if ext.readOnly then s
  else if p.expiration < now then s
  else s.markTransactionKnownByPeer now p.id

/-- Nothing where the handler throws or where there is none. -/
def on (s : Session) : BnetMessage → Option Session
  | .hello hi extensions => some (s.onHello ext hi extensions)
  | .blockNotice blockIds => some (s.onBlockNotice ext blockIds)
  | .signedBlock b => b.map (s.onSignedBlock ext now)
  | .packedTransaction p => p.map (s.onPackedTransaction ext now)
  | .ping p => some (s.onPing p)
  | .pong _ code => some (s.onPong code)
  | .trxNotice _ | .malformed => none

def onMessage (s : Session) (msg : BnetMessage) : Session :=
  let s := { s with heard := s.heard ++ [msg] }
  match s.on ext now msg with
  | some s => s.maybeSendNextMessage ext now
  | none => s.doGoodbye

end Handlers

end Session

/-! ### Steps -/

inductive Event
  | acceptedTransaction (t : PackedTransaction)
  | newLib (b : SignedBlock)
  | badBlock (b : SignedBlock)
  | acceptedBlockHeader (b : SignedBlock)
  | acceptedBlock (b : SignedBlock)
  /-- The chain has given its pending blocks for the hello. -/
  | pendingBlockIds (ids : List BlockId) (lib : UInt32)
  /-- The chain has answered for the block that was asked for. -/
  | asyncGetBlock (nextblock : Option SignedBlock)
  | write (failed : Bool)
  | message (msg : BnetMessage)
  /-- The socket fails, or the connection is found to be redundant. -/
  | fail
  deriving DecidableEq

namespace Session

/-- What happens at a time of the clock. -/
def step (ext : Externals) (s : Session) : Time × Event → Except Unit Session
  | (now, e) =>
    if s.closed then .error ()
    else
      match e with
      | .acceptedTransaction t => .ok (s.onAcceptedTransaction ext now t)
      | .newLib b => .ok (s.onNewLib ext now b)
      | .badBlock b => .ok (s.onBadBlock b)
      | .acceptedBlockHeader b => .ok (s.onAcceptedBlockHeader now b)
      | .acceptedBlock b => .ok (s.onAcceptedBlock ext now b)
      | .pendingBlockIds ids lib =>
        if s.sentRemoteHello then .error () else .ok (s.doHello ext ids lib)
      | .asyncGetBlock nextblock =>
        match s.fetching with
        | none => .error ()
        | some blocknum =>
          if ∀ b ∈ nextblock, ext.numFromId b.id = blocknum then
            .ok ({ s with fetching := none }.onAsyncGetBlock ext now nextblock)
          else .error ()
      | .write failed => if s.outBuffer.isNone then .error () else .ok (s.onWrite ext now failed)
      | .message msg => .ok (s.onMessage ext now msg)
      | .fail => .ok s.doGoodbye

/-- What an open session does with each event, and when the event can come. -/
inductive Takes (ext : Externals) (now : Time) (s : Session) : Event → Session → Prop
  | acceptedTransaction (t : PackedTransaction) :
      Takes ext now s (.acceptedTransaction t) (s.onAcceptedTransaction ext now t)
  | newLib (b : SignedBlock) : Takes ext now s (.newLib b) (s.onNewLib ext now b)
  | badBlock (b : SignedBlock) : Takes ext now s (.badBlock b) (s.onBadBlock b)
  | acceptedBlockHeader (b : SignedBlock) :
      Takes ext now s (.acceptedBlockHeader b) (s.onAcceptedBlockHeader now b)
  | acceptedBlock (b : SignedBlock) :
      Takes ext now s (.acceptedBlock b) (s.onAcceptedBlock ext now b)
  | pendingBlockIds (ids : List BlockId) (lib : UInt32) (hhello : s.sentRemoteHello = false) :
      Takes ext now s (.pendingBlockIds ids lib) (s.doHello ext ids lib)
  | asyncGetBlock (nextblock : Option SignedBlock) (hfetching : s.fetching.isSome) :
      Takes ext now s (.asyncGetBlock nextblock)
        ({ s with fetching := none }.onAsyncGetBlock ext now nextblock)
  | write (failed : Bool) (hbuffer : s.outBuffer.isSome) :
      Takes ext now s (.write failed) (s.onWrite ext now failed)
  | message (msg : BnetMessage) : Takes ext now s (.message msg) (s.onMessage ext now msg)
  | fail : Takes ext now s .fail s.doGoodbye

theorem takes_of_step {ext : Externals} {now : Time} {s s' : Session} {e : Event}
    (hok : s.step ext (now, e) = .ok s') : s.closed = false ∧ Takes ext now s e s' := by
  obtain ⟨hclosed, hok⟩ := Rollback.ite_error_eq_ok.mp hok
  refine ⟨Bool.eq_false_iff.mpr hclosed, ?_⟩
  cases e with
  | acceptedTransaction t => exact Except.ok.inj hok ▸ .acceptedTransaction t
  | newLib b => exact Except.ok.inj hok ▸ .newLib b
  | badBlock b => exact Except.ok.inj hok ▸ .badBlock b
  | acceptedBlockHeader b => exact Except.ok.inj hok ▸ .acceptedBlockHeader b
  | acceptedBlock b => exact Except.ok.inj hok ▸ .acceptedBlock b
  | pendingBlockIds ids lib =>
      obtain ⟨hhello, hok⟩ := Rollback.ite_error_eq_ok.mp hok
      exact Except.ok.inj hok ▸ .pendingBlockIds ids lib (Bool.eq_false_iff.mpr hhello)
  | asyncGetBlock nextblock =>
      dsimp only at hok
      split at hok
      · cases hok
      · next blocknum hfetching =>
          obtain ⟨-, rfl⟩ := Rollback.ite_ok_eq_ok.mp hok
          exact .asyncGetBlock nextblock (by rw [hfetching]; rfl)
  | write failed =>
      obtain ⟨hbuffer, hok⟩ := Rollback.ite_error_eq_ok.mp hok
      rw [Option.isNone_iff_eq_none] at hbuffer
      exact Except.ok.inj hok ▸ .write failed (Option.isSome_iff_ne_none.mpr hbuffer)
  | message msg => exact Except.ok.inj hok ▸ .message msg
  | fail => exact Except.ok.inj hok ▸ .fail

/-- What a session does with each message that it has a handler for. -/
inductive Reads (ext : Externals) (now : Time) (s : Session) : BnetMessage → Session → Prop
  | hello (hi : Hello) (extensions : List ℕ) :
      Reads ext now s (.hello hi extensions) (s.onHello ext hi extensions)
  | blockNotice (blockIds : List BlockId) :
      Reads ext now s (.blockNotice blockIds) (s.onBlockNotice ext blockIds)
  | signedBlock (b : SignedBlock) :
      Reads ext now s (.signedBlock (some b)) (s.onSignedBlock ext now b)
  | packedTransaction (p : PackedTransaction) :
      Reads ext now s (.packedTransaction (some p)) (s.onPackedTransaction ext now p)
  | ping (p : Ping) : Reads ext now s (.ping p) (s.onPing p)
  | pong (sent : Time) (code : Sha256) : Reads ext now s (.pong sent code) (s.onPong code)

theorem reads_of_on {ext : Externals} {now : Time} {s s' : Session} {msg : BnetMessage}
    (hon : s.on ext now msg = some s') : Reads ext now s msg s' := by
  cases msg with
  | hello hi extensions => exact Option.some.inj hon ▸ .hello hi extensions
  | trxNotice => cases hon
  | blockNotice blockIds => exact Option.some.inj hon ▸ .blockNotice blockIds
  | signedBlock b =>
      cases b with
      | none => cases hon
      | some b => exact Option.some.inj hon ▸ .signedBlock b
  | packedTransaction p =>
      cases p with
      | none => cases hon
      | some p => exact Option.some.inj hon ▸ .packedTransaction p
  | ping p => exact Option.some.inj hon ▸ .ping p
  | pong sent code => exact Option.some.inj hon ▸ .pong sent code
  | malformed => cases hon

theorem mem_of_findBlock {s : Session} {id : BlockId} {item : BlockStatus}
    (h : s.findBlock id = some item) : item ∈ s.blockStatus ∧ item.id = id := by
  unfold findBlock at h
  have hid := List.find?_some (p := fun item : BlockStatus => decide (item.id = id)) h
  exact ⟨List.mem_of_find?_eq_some h, of_decide_eq_true hid⟩

theorem mem_of_findTrx {s : Session} {id : TransactionId} {stat : TransactionStatus}
    (h : s.findTrx id = some stat) : stat ∈ s.transactionStatus ∧ stat.id = id := by
  unfold findTrx at h
  have hid := List.find?_some (p := fun stat : TransactionStatus => decide (stat.id = id)) h
  exact ⟨List.mem_of_find?_eq_some h, of_decide_eq_true hid⟩

/-! ### What marking leaves alone -/

/-- At most the tables are different. -/
def Marked (s s' : Session) : Prop :=
  ∃ blockStatus transactionStatus,
    s' = { s with blockStatus := blockStatus, transactionStatus := transactionStatus }

theorem Marked.trans {s s₁ s₂ : Session} (h : Marked s s₁) (h' : Marked s₁ s₂) : Marked s s₂ := by
  obtain ⟨_, _, rfl⟩ := h
  obtain ⟨blockStatus, transactionStatus, rfl⟩ := h'
  exact ⟨blockStatus, transactionStatus, rfl⟩

theorem Marked.foldl {ι : Type} {f : Session → ι → Session} (hf : ∀ s i, Marked s (f s i))
    (l : List ι) (s : Session) : Marked s (l.foldl f s) :=
  List.foldlRecOn (motive := Marked s) l f ⟨_, _, rfl⟩ fun s₁ hs₁ i _ => hs₁.trans (hf s₁ i)

/-- Marking a block changes at most what is known of this block. -/
theorem markBlockStatus_cases (ext : Externals) (s : Session) (id : BlockId) (known recv : Bool) :
    ∃ blockStatus, s.markBlockStatus ext id known recv = { s with blockStatus := blockStatus } ∧
      ∀ item ∈ blockStatus, item ∈ s.blockStatus ∨ item.id = id := by
  unfold markBlockStatus
  split
  · dsimp only
    split
    · refine ⟨_, rfl, fun item hitem => (List.mem_append.mp hitem).imp_right fun hmem => ?_⟩
      rw [List.mem_singleton.mp hmem]
    · exact ⟨_, rfl, fun _ hitem => .inl hitem⟩
  · refine ⟨_, rfl, fun item hitem => ?_⟩
    obtain ⟨item, hmem, rfl⟩ := List.mem_map.mp hitem
    split
    · next hid => exact .inr hid
    · exact .inl hmem

theorem marked_markBlockStatus (ext : Externals) (s : Session) (id : BlockId) (known recv : Bool) :
    Marked s (s.markBlockStatus ext id known recv) := by
  obtain ⟨blockStatus, heq, -⟩ := markBlockStatus_cases ext s id known recv
  exact ⟨blockStatus, s.transactionStatus, heq⟩

theorem marked_markTransactionKnownByPeer (now : Time) (s : Session) (id : TransactionId) :
    Marked s (s.markTransactionKnownByPeer now id) := by
  unfold markTransactionKnownByPeer
  split <;> exact ⟨_, _, rfl⟩

theorem marked_markBlockTransactionsKnownByPeer (now : Time) (s : Session) (b : SignedBlock) :
    Marked s (s.markBlockTransactionsKnownByPeer now b) :=
  .foldl (marked_markTransactionKnownByPeer now) _ s

theorem marked_onBlockNotice (ext : Externals) (s : Session) (ids : List BlockId) :
    Marked s (s.onBlockNotice ext ids) :=
  .foldl (fun s id => marked_markBlockStatus ext s id true false) ids s

theorem insertNotice_cases (s : Session) (id : BlockId) :
    ∃ notices, s.insertNotice id = { s with blockHeaderNotices := notices } := by
  unfold insertNotice
  split <;> exact ⟨_, rfl⟩

/-! ### What the handlers change -/

/-- A hello is refused, or it moves the position and its blocks are marked. -/
theorem onHello_cases (ext : Externals) (s : Session) (hi : Hello) (extensions : List ℕ) :
    (hi.chainId ≠ ext.chainId ∨ hi.peerId = ext.localPeerId ∨
        ext.followIrreversible = true ∧ hi.protocolVersion ≤ "1.0.0") ∧
      s.onHello ext hi extensions = { s with recvRemoteHello := true }.doGoodbye ∨
    ∃ irreversibleOnly, s.onHello ext hi extensions =
      { s with
        recvRemoteHello := true
        remoteRequestIrreversibleOnly := irreversibleOnly
        lastSentBlockNum := hi.lastIrrBlockNum
        remoteRequestTrx := hi.requestTransactions
        remotePeerId := hi.peerId
        remoteLib := hi.lastIrrBlockNum }.onBlockNotice ext hi.pendingBlockIds := by
  unfold onHello
  dsimp only
  split
  · next hchain => exact .inl ⟨.inl hchain, rfl⟩
  · split
    · next hpeer => exact .inl ⟨.inr (.inl hpeer), rfl⟩
    · split
      · next hversion => exact .inl ⟨.inr (.inr hversion), rfl⟩
      · refine .inr ?_
        split
        · exact ⟨true, rfl⟩
        · exact ⟨s.remoteRequestIrreversibleOnly, rfl⟩

theorem onNewLib_cases (ext : Externals) (now : Time) (s : Session) (b : SignedBlock) :
    ∃ notices, s.onNewLib ext now b =
      { s with
        localLib := ext.numFromId b.id
        localLibId := b.id
        blockStatus := s.blockStatus.filter fun item =>
          min (ext.numFromId b.id) s.lastSentBlockNum ≤ ext.numFromId item.id
        blockHeaderNotices := notices }.maybeSendNextMessage ext now := by
  unfold onNewLib
  dsimp only
  split
  · split
    · exact ⟨s.blockHeaderNotices, rfl⟩
    · obtain ⟨notices, heq⟩ := insertNotice_cases
        { s with
          localLib := ext.numFromId b.id
          localLibId := b.id
          blockStatus := s.blockStatus.filter fun item =>
            min (ext.numFromId b.id) s.lastSentBlockNum ≤ ext.numFromId item.id } b.id
      exact ⟨notices, by rw [heq]⟩
  · exact ⟨s.blockHeaderNotices, rfl⟩

/-- A header is at most announced, and tracked as unknown to the peer. -/
theorem onAcceptedBlockHeader_cases (now : Time) (s : Session) (b : SignedBlock) :
    ∃ notices, s.onAcceptedBlockHeader now b = { s with blockHeaderNotices := notices } ∨
      s.onAcceptedBlockHeader now b =
        { s with
          blockHeaderNotices := notices
          blockStatus := s.blockStatus ++ [⟨b.id, false, false⟩] } := by
  have hnotice : ∀ c : Bool, ∃ notices, (if c then s.insertNotice b.id else s) =
      { s with blockHeaderNotices := notices } := by
    intro c
    split
    · exact insertNotice_cases s b.id
    · exact ⟨s.blockHeaderNotices, rfl⟩
  unfold onAcceptedBlockHeader
  split
  · obtain ⟨notices, heq⟩ := hnotice
      (!s.remoteRequestIrreversibleOnly && !(s.findBlock b.id).any BlockStatus.receivedFromPeer)
    dsimp only
    rw [heq]
    split
    · exact ⟨notices, .inr rfl⟩
    · exact ⟨notices, .inl rfl⟩
  · exact ⟨s.blockHeaderNotices, .inl rfl⟩

theorem onPackedTransaction_cases (ext : Externals) (now : Time) (s : Session) (p : PackedTransaction) :
    s.onPackedTransaction ext now p = s ∨
      s.onPackedTransaction ext now p = s.markTransactionKnownByPeer now p.id := by
  unfold onPackedTransaction
  split
  · exact .inl rfl
  · split
    · exact .inl rfl
    · exact .inr rfl

/-! ### What is said next -/

/-- What a session whose socket is free does next, and why nothing that comes before it. -/
inductive Next (ext : Externals) (now : Time) (s : Session) : Session → Prop
  | notice (hnotices : s.blockHeaderNotices ≠ []) :
      Next ext now s { s.send (.blockNotice s.blockHeaderNotices) with blockHeaderNotices := [] }
  | pong (hnotices : s.blockHeaderNotices = []) (hcode : s.lastRecvPing.code ≠ 0) :
      Next ext now s { s.send (.pong now s.lastRecvPing.code) with
        lastRecvPing := { s.lastRecvPing with code := 0 } }
  | ping (hnotices : s.blockHeaderNotices = []) (hcode : s.lastRecvPing.code = 0)
      (hdue : s.lastSentPing.sent + seconds 3 ≤ now) (hanswered : s.lastSentPing.code = 0) :
      Next ext now s ({ s with lastSentPing := ⟨now, ext.hash now, s.localLib⟩ }.send
        (.ping ⟨now, ext.hash now, s.localLib⟩))
  | unanswered (hnotices : s.blockHeaderNotices = []) (hcode : s.lastRecvPing.code = 0)
      (hdue : s.lastSentPing.sent + seconds 3 ≤ now) (hping : s.lastSentPing.code ≠ 0) :
      Next ext now s s
  | unknown (hnotices : s.blockHeaderNotices = []) (hcode : s.lastRecvPing.code = 0)
      (hnotdue : now < s.lastSentPing.sent + seconds 3) (hhead : s.localHeadBlockId = 0) :
      Next ext now s s
  | fetch (hnotices : s.blockHeaderNotices = []) (hcode : s.lastRecvPing.code = 0)
      (hnotdue : now < s.lastSentPing.sent + seconds 3) :
      Next ext now s { s with state := .sending, fetching := some (s.lastSentBlockNum + 1) }
  | trx (hnotices : s.blockHeaderNotices = []) (hcode : s.lastRecvPing.code = 0)
      (hnotdue : now < s.lastSentPing.sent + seconds 3) (start : TransactionStatus)
      (hstart : start ∈ s.transactionStatus) (hunknown : start.knownByPeer = false) :
      Next ext now s ((s.modifyTrx start.id TransactionStatus.markKnownByPeer).send
        (.packedTransaction start.trx))
  | nothing (hnotices : s.blockHeaderNotices = []) (hcode : s.lastRecvPing.code = 0)
      (hnotdue : now < s.lastSentPing.sent + seconds 3)
      (hsent : s.remoteRequestIrreversibleOnly = true ∧ s.lastSentBlockId = s.localLibId ∨
        s.lastSentBlockId = s.localHeadBlockId) : Next ext now s s

variable {ext : Externals} {now : Time} {s : Session}

theorem sendNextBlock_cases (s : Session) :
    s.sendNextBlock = some { s with state := .sending, fetching := some (s.lastSentBlockNum + 1) } ∨
    s.sendNextBlock = none ∧
      (s.remoteRequestIrreversibleOnly = true ∧ s.lastSentBlockId = s.localLibId ∨
        s.lastSentBlockId = s.localHeadBlockId) := by
  unfold sendNextBlock
  split
  · next hlib => exact .inr ⟨rfl, .inl hlib⟩
  · split
    · next hhead => exact .inr ⟨rfl, .inr hhead⟩
    · exact .inl rfl

theorem sendNextTrx_cases (s : Session) :
    s.sendNextTrx = none ∨ ∃ start ∈ s.transactionStatus, start.knownByPeer = false ∧
      s.sendNextTrx = some ((s.modifyTrx start.id TransactionStatus.markKnownByPeer).send
        (.packedTransaction start.trx)) := by
  unfold sendNextTrx
  split
  · exact .inl rfl
  · cases hstart : s.transactionStatus.argmin TransactionStatus.received with
    | none => exact .inl rfl
    | some start =>
        dsimp only
        split
        · exact .inl rfl
        · next hunknown =>
            exact .inr ⟨start, List.argmin_mem hstart, Bool.eq_false_iff.mpr hunknown, rfl⟩

theorem next_nextMessage (ext : Externals) (now : Time) (s : Session) :
    Next ext now s ((s.nextMessage ext now).getD s) := by
  unfold nextMessage
  by_cases hnotices : s.blockHeaderNotices = []
  · rw [sendBlockNotice, if_pos hnotices, Option.none_or]
    by_cases hcode : s.lastRecvPing.code = 0
    · rw [sendPong, if_pos hcode, Option.none_or]
      by_cases hnotdue : now < s.lastSentPing.sent + seconds 3
      · rw [sendPing, if_pos hnotdue, Option.none_or]
        by_cases hhead : s.localHeadBlockId = 0
        · rw [if_pos hhead]
          exact .unknown hnotices hcode hnotdue hhead
        · rw [if_neg hhead]
          obtain hblock | ⟨hblock, hsent⟩ := s.sendNextBlock_cases
          · rw [hblock]
            exact .fetch hnotices hcode hnotdue
          · rw [hblock, Option.none_or]
            obtain htrx | ⟨start, hstart, hunknown, htrx⟩ := s.sendNextTrx_cases
            · rw [htrx]
              exact .nothing hnotices hcode hnotdue hsent
            · rw [htrx]
              exact .trx hnotices hcode hnotdue start hstart hunknown
      · rw [sendPing, if_neg hnotdue]
        by_cases hanswered : s.lastSentPing.code = 0
        · rw [if_pos hanswered]
          exact .ping hnotices hcode (not_lt.mp hnotdue) hanswered
        · rw [if_neg hanswered]
          exact .unanswered hnotices hcode (not_lt.mp hnotdue) hanswered
    · rw [sendPong, if_neg hcode]
      exact .pong hnotices hcode
  · rw [sendBlockNotice, if_neg hnotices]
    exact .notice hnotices

/-- The socket is in use, or the hellos have not been exchanged. -/
def Busy (s : Session) : Prop :=
  s.state = .sending ∨ s.outBuffer.isSome ∨ s.recvRemoteHello = false ∨ s.sentRemoteHello = false

theorem maybeSendNextMessage_cases (ext : Externals) (now : Time) (s : Session) :
    s.Busy ∧ s.maybeSendNextMessage ext now = s ∨
    ¬ s.Busy ∧ Next ext now (s.clearExpiredTrx now) (s.maybeSendNextMessage ext now) := by
  unfold maybeSendNextMessage Busy
  split
  · next hstate => exact .inl ⟨.inl hstate, rfl⟩
  · next hstate =>
      split
      · next hbuffer => exact .inl ⟨.inr (.inl hbuffer), rfl⟩
      · next hbuffer =>
          split
          · next hhello =>
              rw [Bool.or_eq_true, Bool.not_eq_true', Bool.not_eq_true'] at hhello
              exact .inl ⟨.inr (.inr hhello), rfl⟩
          · next hhello =>
              rw [Bool.or_eq_true, Bool.not_eq_true', Bool.not_eq_true'] at hhello
              refine .inr ⟨?_, next_nextMessage ext now _⟩
              rintro (h | h | h)
              · exact hstate h
              · exact hbuffer h
              · exact hhello h

/-! ### Some sessions -/

/-- A chain whose blocks have their numbers for ids. -/
def numberedChain : Externals where
  numFromId id := .ofNat id.toNat
  previous id := .ofNat 256 (id.toNat - 1)
  hash _ := 1

def blockOf (n : ℕ) : SignedBlock where
  id := .ofNat 256 n

/-- A session with a local head at 105 whose peer has the blocks from 5 to 8, and what the
chain answers to it. -/
def withPeer (localLib : ℕ) (answers : List ℕ) : List (Time × Event) :=
  [.newLib (blockOf localLib), .acceptedBlock (blockOf 105),
    .pendingBlockIds [.ofNat 256 localLib] (.ofNat localLib),
    .message (.hello { lastIrrBlockNum := 5, pendingBlockIds := [5, 6, 7, 8] } []),
    .write false, .write false].map (fun e => (seconds 10, e)) ++
  answers.map fun n => (seconds 10, .asyncGetBlock (some (blockOf n)))

end Session

end Xidata.Bnet
