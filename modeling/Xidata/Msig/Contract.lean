import Xidata.Eosiolib.Datastream
import Xidata.Library.OrderedTable

/-!
The multisig contract: proposed transactions, the approvals that are requested
and provided for them, and the deferred transactions that it sends.  A proposal
and its approvals are rows of two tables under one key, the proposer as the
scope and the name of the proposal.
-/

namespace Xidata.Msig

open Eosiolib

structure PermissionLevel where
  actor : AccountName
  permission : UInt64
  deriving DecidableEq

/-- What one action sees of the chain: the permission levels it carries, the
block time in microseconds, and what the chain answers when it is asked whether
permission levels, which are passed packed, suffice for a packed transaction,
and to send a deferred transaction. -/
structure Ctx where
  auth : List PermissionLevel
  currentTime : UInt64
  checkTransactionAuthorization : Bytes → List PermissionLevel → Int32
  acceptsDeferred : Bool

def Ctx.now (c : Ctx) : UInt32 := (c.currentTime / 1000000).toUInt32

/-- `require_auth` of an account, under any of its permissions. -/
def requireAuth (c : Ctx) (account : AccountName) : Result Unit :=
  if account ∈ c.auth.map PermissionLevel.actor then .ok () else .error (.missingAuthority account)

/-- `require_auth2`. -/
def requireLevel (c : Ctx) (level : PermissionLevel) : Result Unit :=
  if level ∈ c.auth then .ok () else .error (.missingAuthority level.actor)

/-! ### Serialization -/

def levelSerial : Serial PermissionLevel :=
  .struct ⟨fun l => (l.actor, l.permission), fun p => ⟨p.1, p.2⟩, fun _ => rfl, fun _ => rfl⟩
    (.cons (.primitive .uint64) (.primitive .uint64))

structure TransactionHeader where
  expiration : UInt32
  refBlockNum : UInt16
  refBlockPrefix : UInt32
  netUsageWords : UnsignedInt
  maxCpuUsageMs : UInt8
  delaySec : UnsignedInt

def headerSerial : Serial TransactionHeader :=
  .struct ⟨fun h => (h.expiration, h.refBlockNum, h.refBlockPrefix, h.netUsageWords,
        h.maxCpuUsageMs, h.delaySec),
      fun p => ⟨p.1, p.2.1, p.2.2.1, p.2.2.2.1, p.2.2.2.2.1, p.2.2.2.2.2⟩, fun _ => rfl, fun _ => rfl⟩
    (.cons (.primitive .uint32) (.cons (.primitive .uint16) (.cons (.primitive .uint32)
      (.cons .unsignedInt (.cons (.primitive .uint8) .unsignedInt)))))

/-! ### The tables -/

structure Proposal where
  proposalName : UInt64
  packedTransaction : Bytes
  deriving DecidableEq

structure ApprovalsInfo where
  proposalName : UInt64
  requestedApprovals : List PermissionLevel
  providedApprovals : List PermissionLevel
  deriving DecidableEq

/-- A transaction that was handed to the chain to be run later. -/
structure Deferred where
  senderId : BitVec 128
  payer : AccountName
  packedTransaction : Bytes
  deriving DecidableEq

structure State where
  proposals : OrderedTable Scoped Proposal
  approvals : OrderedTable Scoped ApprovalsInfo
  /-- All deferred transactions sent so far. -/
  sent : List Deferred

def State.init : State := ⟨.empty, .empty, []⟩

/-- `(uint128_t(proposer) << 64) | proposal_name`. -/
def senderId (key : Scoped) : BitVec 128 :=
  (key.scope.toBitVec.setWidth 128 <<< 64) ||| key.key.toBitVec.setWidth 128

/-! ### The actions -/

/-- What `propose` reads of its data: the key of the proposal, the requested
approvals, the position of the transaction and its header. -/
structure Proposed where
  key : Scoped
  requested : List PermissionLevel
  trxPos : ℕ
  header : TransactionHeader

def Proposed.parse (data : Bytes) : Result Proposed := do
  let proposer ← (Serial.primitive .uint64).read ⟨data, 0⟩
  let proposalName ← (Serial.primitive .uint64).read proposer.2
  let requested ← (Serial.vector levelSerial).read proposalName.2
  let header ← headerSerial.read requested.2
  pure ⟨⟨proposer.1, proposalName.1⟩, requested.1.val, requested.2.pos, header.1⟩

def propose (c : Ctx) (s : State) (data : Bytes) : Result State := do
  let p ← Proposed.parse data
  requireAuth c p.key.scope
  eosioAssert .propose (c.now ≤ p.header.expiration) "transaction expired"
  eosioAssert .propose (s.proposals.find p.key = none) "proposal with the same name exists"
  let trx := data.drop p.trxPos
  let res := c.checkTransactionAuthorization trx p.requested
  eosioAssert .propose (0 < res) "transaction authorization failed"
  eosioAssert .database (s.approvals.find p.key = none) "row already exists"
  pure { s with
    proposals := s.proposals.set p.key ⟨p.key.key, trx⟩
    approvals := s.approvals.set p.key ⟨p.key.key, p.requested, []⟩ }

def approve (c : Ctx) (s : State) (key : Scoped) (level : PermissionLevel) : Result State := do
  requireLevel c level
  let apps ← getRow .multiIndex (s.approvals.find key) "proposal not found"
  eosioAssert .approve (level ∈ apps.requestedApprovals)
    "approval is not on the list of requested approvals"
  pure { s with
    approvals := s.approvals.set key { apps with
      providedApprovals := apps.providedApprovals ++ [level]
      requestedApprovals := apps.requestedApprovals.erase level } }

def unapprove (c : Ctx) (s : State) (key : Scoped) (level : PermissionLevel) : Result State := do
  requireLevel c level
  let apps ← getRow .multiIndex (s.approvals.find key) "proposal not found"
  eosioAssert .unapprove (level ∈ apps.providedApprovals) "no approval previously granted"
  pure { s with
    approvals := s.approvals.set key { apps with
      requestedApprovals := apps.requestedApprovals ++ [level]
      providedApprovals := apps.providedApprovals.erase level } }

def cancel (c : Ctx) (s : State) (key : Scoped) (canceler : AccountName) : Result State := do
  requireAuth c canceler
  let prop ← getRow .multiIndex (s.proposals.find key) "proposal not found"
  if canceler ≠ key.scope then
    let header ← headerSerial.unpack prop.packedTransaction
    eosioAssert .cancel (header.expiration < c.now) "cannot cancel until expiration"
  let _ ← getRow .multiIndex (s.approvals.find key) "proposal not found"
  pure { s with proposals := s.proposals.erase key, approvals := s.approvals.erase key }

def exec (c : Ctx) (s : State) (key : Scoped) (executer : AccountName) : Result State := do
  requireAuth c executer
  let prop ← getRow .multiIndex (s.proposals.find key) "proposal not found"
  let apps ← getRow .multiIndex (s.approvals.find key) "proposal not found"
  let header ← headerSerial.unpack prop.packedTransaction
  eosioAssert .exec (c.now ≤ header.expiration) "transaction expired"
  let res := c.checkTransactionAuthorization prop.packedTransaction apps.providedApprovals
  eosioAssert .exec (0 < res) "transaction authorization failed"
  eosioAssert .deferred c.acceptsDeferred ""
  pure {
    proposals := s.proposals.erase key
    approvals := s.approvals.erase key
    sent := s.sent ++ [⟨senderId key, executer, prop.packedTransaction⟩] }

inductive Action
  | propose (data : Bytes)
  | approve (key : Scoped) (level : PermissionLevel)
  | unapprove (key : Scoped) (level : PermissionLevel)
  | cancel (key : Scoped) (canceler : AccountName)
  | exec (key : Scoped) (executer : AccountName)
  deriving DecidableEq

structure Event where
  ctx : Ctx
  action : Action

def step (s : State) (e : Event) : Result State :=
  match e.action with
  | .propose data => propose e.ctx s data
  | .approve key level => approve e.ctx s key level
  | .unapprove key level => unapprove e.ctx s key level
  | .cancel key canceler => cancel e.ctx s key canceler
  | .exec key executer => exec e.ctx s key executer

end Xidata.Msig
