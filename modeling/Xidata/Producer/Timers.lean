import Xidata.Producer.Incoming
import Xidata.Producer.Schedule

/-!
The production loop and its timer.  Whoever waits for the timer is given the next correlation id,
and a callback that is run with another one than the current does nothing: it may have been queued
already when the loop was run by something else.
-/

namespace Xidata.Producer

open Net (PublicKey)
open Intake (StartBlockResult)

/-- What the chain library knows of slots. -/
structure BlockTimes where
  slot : ℤ → ℕ
  toTimePoint : ℕ → ℤ
  producerRepetitions : ℕ

/-- What comes of a block that is started: the clock, then and later, the signing key of the block
if the chain can start one, and how its transactions fare. -/
structure Start where
  now : ℤ
  later : ℤ
  key : Option PublicKey := none
  failed : Bool := false
  exhausted : Bool := false

namespace Plugin

def productionDisabledByPolicy (s : Plugin) (now : ℤ) : Prop :=
  ¬ s.productionEnabled ∨ s.pauseProduction ∨
    0 ≤ s.maxIrreversibleBlockAge ∧ s.maxIrreversibleBlockAge ≤ s.irreversibleBlockAge now

instance (s : Plugin) (now : ℤ) : Decidable (s.productionDisabledByPolicy now) :=
  inferInstanceAs (Decidable (_ ∨ _ ∨ _))

def abortBlock (s : Plugin) : Plugin := { s with pending := none }

def startResult (s : Plugin) (e : Start) : StartBlockResult :=
  if s.waits e.now then .waiting
  else match (s.startBlock e.now e.key).pending with
    | none => .failed
    | some _ => if e.failed then .failed else if e.exhausted then .exhausted else .succeeded

end Plugin

inductive Callback
  | scheduleProductionLoop | maybeProduceBlock
  deriving DecidableEq

structure Wait where
  callback : Callback
  cid : UInt32
  deriving DecidableEq

/-- `timer` is who waits for it, and `queued` are those whose time has come and who have not run
yet.  The loop has been `idle` since it last ran if it has not set the timer. -/
structure Loop where
  plugin : Plugin
  timerCorelationId : UInt32 := 0
  timer : Option Wait := none
  queued : List Wait := []
  idle : Bool := true

namespace Loop

variable (b : BlockTimes)

def arm (s : Loop) (callback : Callback) : Loop :=
  let cid := s.timerCorelationId + 1
  { s with timerCorelationId := cid, timer := some ⟨callback, cid⟩, idle := false }

def scheduleDelayedProductionLoop (s : Loop) (currentBlockTime : ℤ) : Loop :=
  match s.plugin.wakeUpTime b.toTimePoint b.producerRepetitions (b.slot currentBlockTime) with
  | some _ => s.arm .scheduleProductionLoop
  | none => s

/-- Whoever waits for the timer is cancelled; those that are queued are not. -/
def scheduleProductionLoop (s : Loop) (e : Start) : Loop :=
  let result := s.plugin.startResult e
  let s := { s with plugin := s.plugin.startBlock e.now e.key, timer := none, idle := true }
  match result with
  | .failed => s.arm .scheduleProductionLoop
  | .waiting =>
    if s.plugin.producers ≠ [] ∧ ¬ s.plugin.productionDisabledByPolicy e.later then
      s.scheduleDelayedProductionLoop b
        (calculatePendingBlockTime e.later s.plugin.head.timestamp)
    else s
  | _ =>
    if s.plugin.pendingBlockMode = .producing then s.arm .maybeProduceBlock
    else match s.plugin.pending with
      | some pbs =>
        if s.plugin.producers ≠ [] ∧ ¬ s.plugin.productionDisabledByPolicy e.later then
          s.scheduleDelayedProductionLoop b pbs.timestamp
        else s
      | none => s

/-- A callback that does not have the current id returns at once. -/
def runCallback (s : Loop) (w : Wait) (after : BlockState) (e : Start) : Loop :=
  let s := { s with queued := s.queued.erase w }
  if w.cid = s.timerCorelationId then
    match w.callback with
    | .scheduleProductionLoop => s.scheduleProductionLoop b e
    | .maybeProduceBlock =>
      { s with plugin := s.plugin.maybeProduceBlock after }.scheduleProductionLoop b e
  else s

/-- The pending block is aborted and the loop run, where it may only have been speculating because
of what has changed. -/
def reevaluate (s : Loop) (e : Start) : Loop :=
  if s.plugin.pendingBlockMode = .speculating then
    { s with plugin := s.plugin.abortBlock }.scheduleProductionLoop b e
  else s

end Loop

/-- A block becomes the head and is announced, or the head is another block. -/
inductive HeadChange
  | accept (bsp : BlockState)
  | switchHead (bs : BlockState)

def Plugin.changeHead (s : Plugin) : HeadChange → Plugin
  | .accept bsp => { s with head := bsp, pending := none }.onBlock bsp
  | .switchHead bs => { s with head := bs, pending := none }

inductive LoopEvent
  /-- A block is pushed, with what that does to the head; `current` if the head is not behind. -/
  | onIncomingBlock (changes : List HeadChange) (current : Bool) (e : Start)
  | timerExpires
  /-- A callback that is queued is run, and `after` is the block it may produce. -/
  | callback (w : Wait) (after : BlockState) (e : Start)
  | pause
  | resume (e : Start)
  | updateRuntimeOptions (maxIrreversibleBlockAge : Option ℤ) (e : Start)
  | onIrreversibleBlock (time : ℤ)

namespace Loop

variable (b : BlockTimes)

def step (s : Loop) : LoopEvent → Loop
  | .onIncomingBlock changes current e =>
    let plugin := changes.foldl Plugin.changeHead s.plugin.abortBlock
    { s with plugin := { plugin with
      productionEnabled := plugin.productionEnabled || current } }.scheduleProductionLoop b e
  | .timerExpires => { s with timer := none, queued := s.queued ++ s.timer.toList }
  | .callback w after e => if w ∈ s.queued then s.runCallback b w after e else s
  | .pause => { s with plugin := { s.plugin with pauseProduction := true } }
  | .resume e => { s with plugin := { s.plugin with pauseProduction := false } }.reevaluate b e
  | .updateRuntimeOptions maxIrreversibleBlockAge e =>
    match maxIrreversibleBlockAge with
    | some age =>
      { s with plugin := { s.plugin with maxIrreversibleBlockAge := age } }.reevaluate b e
    | none => s
  | .onIrreversibleBlock time =>
    { s with plugin := { s.plugin with irreversibleBlockTime := time } }

/-- The loop is run when the plugin starts. -/
def startup (plugin : Plugin) (e : Start) : Loop := scheduleProductionLoop b { plugin } e

def run (s : Loop) (es : List LoopEvent) : Loop := es.foldl (step b) s

end Loop

end Xidata.Producer
