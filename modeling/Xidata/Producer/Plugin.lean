import Xidata.Eosiolib.Types
import Xidata.Net.Protocol

/-!
The producer plugin: which blocks it signs and which it confirms.  The chain library is
outside: a block that becomes the head is given with what the plugin reads of its state,
and a block that is started is the next one after the head, for the producer that the head
has scheduled.  Times are numbers of microseconds.
-/

namespace Xidata.Producer

open Eosiolib (AccountName)
open Net (PublicKey)

structure ProducerKey where
  producerName : AccountName
  blockSigningKey : PublicKey
  deriving DecidableEq

structure ProducerSchedule where
  version : UInt32 := 0
  producers : List ProducerKey := []
  deriving DecidableEq

namespace ProducerSchedule

def names (schedule : ProducerSchedule) : List AccountName :=
  schedule.producers.map ProducerKey.producerName

def key (schedule : ProducerSchedule) (producer : AccountName) : Option PublicKey :=
  (schedule.producers.find? fun k => k.producerName = producer).map ProducerKey.blockSigningKey

end ProducerSchedule

/-- What the plugin reads of a block and its state.  `promoted` is the active schedule of the
block after it, where a pending one is promoted for that block. -/
structure BlockState where
  blockNum : ℕ := 0
  timestamp : ℤ := 0
  producer : AccountName := 0
  activeSchedule : ProducerSchedule := {}
  promoted : Option ProducerSchedule := none
  getScheduledProducer : ℤ → ProducerKey := fun _ => ⟨0, {}⟩

structure PendingBlock where
  blockNum : ℕ
  timestamp : ℤ
  producer : AccountName
  blockSigningKey : PublicKey
  confirmed : ℕ
  deriving DecidableEq

inductive PendingBlockMode
  | producing | speculating
  deriving DecidableEq

/-- A signature made with the key of a local producer: of a block that confirms the
`confirmed` blocks before it, or of a confirmation of a block. -/
inductive Signing
  | block (producer : AccountName) (num confirmed : ℕ)
  | confirmation (producer : AccountName) (num : ℕ)
  deriving DecidableEq

/-- The plugin and, in `head` and `pending`, the state of the chain; `history` is what has
been signed so far. -/
structure Plugin where
  producers : List AccountName
  signatureProviders : List PublicKey
  readOnly : Bool := false
  productionEnabled : Bool := false
  pauseProduction : Bool := false
  maxIrreversibleBlockAge : ℤ := -1
  irreversibleBlockTime : ℤ := 0
  producerWatermarks : AccountName → Option ℕ := fun _ => none
  pendingBlockMode : PendingBlockMode := .speculating
  lastSignedBlockTime : ℤ := 0
  startTime : ℤ := 0
  lastSignedBlockNum : ℕ := 0
  head : BlockState := {}
  pending : Option PendingBlock := none
  history : List Signing := []

def blockInterval : ℤ := 500000

/-- At least a tenth of a block interval from now. -/
def calculatePendingBlockTime (now headBlockTime : ℤ) : ℤ :=
  let base := max now headBlockTime
  let blockTime := base + (blockInterval - base % blockInterval)
  if blockTime - now < blockInterval / 10 then blockTime + blockInterval else blockTime

namespace Plugin

/-! ### Blocks that become the head -/

def setWatermark (s : Plugin) (producer : AccountName) (num : ℕ) : Plugin :=
  { s with producerWatermarks := Function.update s.producerWatermarks producer (some num) }

/-- An active local producer confirms the blocks of others, where it has the key. -/
def confirms (s : Plugin) (bsp : BlockState) (producer : AccountName) : Prop :=
  producer ≠ bsp.producer ∧ (bsp.activeSchedule.key producer).any (· ∈ s.signatureProviders)

instance (s : Plugin) (bsp : BlockState) (producer : AccountName) :
    Decidable (s.confirms bsp producer) :=
  inferInstanceAs (Decidable (_ ∧ _))

def signConfirmation (bsp : BlockState) (s : Plugin) (producer : AccountName) : Plugin :=
  { s with
    lastSignedBlockTime := bsp.timestamp
    lastSignedBlockNum := bsp.blockNum
    history := s.history ++ [.confirmation producer bsp.blockNum] }

def confirmAs (bsp : BlockState) (s : Plugin) (producer : AccountName) : Plugin :=
  if s.confirms bsp producer then signConfirmation bsp s producer else s

def confirm (s : Plugin) (bsp : BlockState) : Plugin :=
  (s.producers.filter (· ∈ bsp.activeSchedule.names)).foldl (confirmAs bsp) s

/-- The local producers that become active with the block after this one. -/
def newProducers (s : Plugin) (bsp : BlockState) : List AccountName :=
  match bsp.promoted with
  | none => []
  | some next =>
    if bsp.activeSchedule.version ≠ next.version then
      (next.names.filter (· ∈ s.producers)).filter (· ∉ bsp.activeSchedule.names)
    else []

/-- The filters of `on_block`. -/
def ignores (s : Plugin) (bsp : BlockState) : Prop :=
  bsp.timestamp ≤ s.lastSignedBlockTime ∨ bsp.timestamp ≤ s.startTime ∨
    bsp.blockNum ≤ s.lastSignedBlockNum

instance (s : Plugin) (bsp : BlockState) : Decidable (s.ignores bsp) :=
  inferInstanceAs (Decidable (_ ∨ _ ∨ _))

def onBlock (s : Plugin) (bsp : BlockState) : Plugin :=
  if s.ignores bsp then s
  else
    let s := s.confirm bsp
    (s.newProducers bsp).foldl (fun s producer => s.setWatermark producer bsp.blockNum) s

/-! ### Production -/

def irreversibleBlockAge (s : Plugin) (now : ℤ) : ℤ :=
  if now < s.irreversibleBlockTime then 0 else now - s.irreversibleBlockTime

/-- The checks of `start_block` for the producer that is scheduled, the watermark last.  It is
compared with the number of the next block, which wraps. -/
def startMode (s : Plugin) (now : ℤ) (scheduled : ProducerKey) : PendingBlockMode :=
  if ¬ s.productionEnabled then .speculating
  else if scheduled.producerName ∉ s.producers then .speculating
  else if scheduled.blockSigningKey ∉ s.signatureProviders then .speculating
  else if s.pauseProduction then .speculating
  else if 0 ≤ s.maxIrreversibleBlockAge ∧ s.maxIrreversibleBlockAge ≤ s.irreversibleBlockAge now then
    .speculating
  else if (s.producerWatermarks scheduled.producerName).any
      ((s.head.blockNum + 1) % 2 ^ 32 ≤ ·) then
    .speculating
  else .producing

/-- The difference to the watermark, cast to 16 bits. -/
def blocksToConfirm (s : Plugin) (producer : AccountName) : ℕ :=
  match s.producerWatermarks producer with
  | some watermark =>
    if watermark < s.head.blockNum then (s.head.blockNum - watermark) % 2 ^ 16 else 0
  | none => 0

def scheduledProducer (s : Plugin) (now : ℤ) : ProducerKey :=
  s.head.getScheduledProducer (calculatePendingBlockTime now s.head.timestamp)

/-- Nothing is started: blocks are only read, or the head is too old for speculation. -/
def waits (s : Plugin) (now : ℤ) : Prop :=
  s.readOnly ∨ s.startMode now (s.scheduledProducer now) = .speculating ∧
    5000000 < now - s.head.timestamp

instance (s : Plugin) (now : ℤ) : Decidable (s.waits now) :=
  inferInstanceAs (Decidable (_ ∨ _))

/-- The block that the chain starts on its head, for the scheduled producer. -/
def chainStartBlock (s : Plugin) (now : ℤ) (key : PublicKey) (confirmed : ℕ) : PendingBlock where
  blockNum := s.head.blockNum + 1
  timestamp := calculatePendingBlockTime now s.head.timestamp
  producer := (s.scheduledProducer now).producerName
  blockSigningKey := key
  confirmed := confirmed

/-- `start_block` up to the transactions.  `key` is the signing key of the block that the
chain starts, if it can start one. -/
def startBlock (s : Plugin) (now : ℤ) (key : Option PublicKey) : Plugin :=
  let scheduled := s.scheduledProducer now
  let mode := s.startMode now scheduled
  if s.readOnly then s
  -- The pending block is not aborted.
  else if s.waits now then { s with pendingBlockMode := mode }
  else
    let confirmed := if mode = .producing then s.blocksToConfirm scheduled.producerName else 0
    match key with
    | none => { s with pendingBlockMode := mode, pending := none }
    | some key => { s with
        pendingBlockMode := if key = scheduled.blockSigningKey then mode else .speculating
        pending := some (s.chainStartBlock now key confirmed) }

/-- The state of the pending block once it has been completed; `after` has the rest of it. -/
def complete (p : PendingBlock) (after : BlockState) : BlockState :=
  { after with blockNum := p.blockNum, producer := p.producer }

/-- The pending block is completed, signed and becomes the head. -/
def produceBlock (s : Plugin) (after : BlockState) : Except Unit Plugin :=
  if s.pendingBlockMode ≠ .producing then .error ()
  else match s.pending with
    | none => .error ()
    | some p =>
      if p.blockSigningKey ∉ s.signatureProviders then .error ()
      else
        let newBs := complete p after
        let s := { s with
          history := s.history ++ [Signing.block p.producer p.blockNum p.confirmed]
          head := newBs
          pending := none }
        .ok ((s.onBlock newBs).setWatermark newBs.producer newBs.blockNum)

def maybeProduceBlock (s : Plugin) (after : BlockState) : Plugin :=
  match s.produceBlock after with
  | .ok s => s
  | .error _ => { s with pending := none }

end Plugin

/-- What can happen to a running node.  A branch that becomes the best one is a sequence of
`switchHead` and `accept`. -/
inductive Event
  /-- The pending block is aborted, and a block becomes the head and is announced. -/
  | accept (bsp : BlockState)
  /-- The pending block is aborted, and the head is another block of the fork database. -/
  | switchHead (bs : BlockState)
  | startBlock (now : ℤ) (key : Option PublicKey)
  | produce (after : BlockState)
  /-- Production is enabled, paused or resumed, the limit is changed, or a block has become
  irreversible. -/
  | settings (enabled paused : Bool) (maxAge irreversibleTime : ℤ)

namespace Plugin

def step (s : Plugin) : Event → Except Unit Plugin
  | .accept bsp => .ok ({ s with head := bsp, pending := none }.onBlock bsp)
  | .switchHead bs => .ok { s with head := bs, pending := none }
  | .startBlock now key => .ok (s.startBlock now key)
  | .produce after => .ok (s.maybeProduceBlock after)
  | .settings enabled paused maxAge irreversibleTime => .ok { s with
      productionEnabled := enabled
      pauseProduction := paused
      maxIrreversibleBlockAge := maxAge
      irreversibleBlockTime := irreversibleTime }

end Plugin

end Xidata.Producer
