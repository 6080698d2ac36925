import Xidata.Library.BatchQueue
import Xidata.Library.Rollback

/-!
The plugin that copies the chain into a database, with its two threads.  The thread of the
application gets the signals of the chain, puts their entries into four queues under a mutex
and wakes the other one by a condition variable; the consume thread takes all queues over at
once and works them off without the mutex.  A step is what a thread does between two points
at which the other one can tell the difference.
-/

namespace Xidata.Mongo

open BatchQueue (Belt)

abbrev TransactionId := BitVec 256
abbrev BlockId := BitVec 256

structure TransactionMetadata where
  id : TransactionId
  deriving DecidableEq

structure TransactionTrace where
  id : TransactionId
  producerBlockId : Option BlockId
  deriving DecidableEq

structure BlockState where
  id : BlockId
  blockNum : UInt32
  deriving DecidableEq

/-- The queues, in the order in which a round works them off. -/
inductive Stream
  | transactionTrace
  | transactionMetadata
  | blockState
  | irreversibleBlockState
  deriving DecidableEq

namespace Stream

def all : List Stream := [transactionTrace, transactionMetadata, blockState, irreversibleBlockState]

def rank : Stream → ℕ
  | transactionTrace => 0
  | transactionMetadata => 1
  | blockState => 2
  | irreversibleBlockState => 3

instance : LT Stream := ⟨fun a b => a.rank < b.rank⟩

instance (a b : Stream) : Decidable (a < b) := inferInstanceAs (Decidable (a.rank < b.rank))

theorem mem_all (k : Stream) : k ∈ all := by
  cases k <;> decide

theorem sorted_all : all.Pairwise (· < ·) := by decide

end Stream

def Entry : Stream → Type
  | .transactionTrace => TransactionTrace
  | .transactionMetadata => TransactionMetadata
  | .blockState => BlockState
  | .irreversibleBlockState => BlockState

/-- An entry with the queue it is for. -/
abbrev Item := Sigma Entry

structure Config where
  maxQueueSize : ℕ
  startBlockNum : UInt32
  isProducer : Bool
  storeBlocks : Bool
  storeBlockStates : Bool
  storeTransactions : Bool
  deriving DecidableEq

/-- What the chain signals. -/
inductive Signal
  | acceptedTransaction (t : TransactionMetadata)
  | appliedTransaction (t : TransactionTrace)
  | acceptedBlock (bs : BlockState)
  | appliedIrreversibleBlock (bs : BlockState)
  deriving DecidableEq

inductive Thread
  | application
  | consume
  deriving DecidableEq

/-- Where the thread of the application stands, in `queue` or in the destructor. -/
inductive ApplicationPc
  | idle
  | locking (i : Item)
  | holding (i : Item)
  | backingOff (i : Item)
  | sleeping (i : Item)
  | relocking (i : Item)
  | pushing (i : Item)
  | unlocking
  | notifying
  | closing
  | closingNotify
  | joining
  | joined

/-- Where the consume thread stands.  `last` holds if there was nothing to take over. -/
inductive ConsumePc
  | acquiring
  | locking
  | testing
  | suspending
  | waiting
  | waking
  | capturing
  | unlocking (last : Bool)
  | processing (last : Bool)
  | finished
  | failed
  deriving DecidableEq

/-- `queued` and `processed` are the history: what was put into a queue, and what was worked
off, with what `start_block_reached` was then. -/
structure State where
  mtx : Option Thread := none
  queues : (k : Stream) → List (Entry k) := fun _ => []
  processQueues : (k : Stream) → List (Entry k) := fun _ => []
  queueSleepTime : ℕ := 0
  done : Bool := false
  startBlockReached : Bool
  application : ApplicationPc := .idle
  consume : ConsumePc := .acquiring
  queued : List Item := []
  processed : List (Item × Bool) := []

namespace State

/-- As it is after `init`. -/
def init (cfg : Config) : State := { startBlockReached := cfg.startBlockNum = 0 }

def queuesEmpty (s : State) : Bool := Stream.all.all fun k => (s.queues k).isEmpty

/-! ### The thread of the application -/

def queue (s : State) (k : Stream) (e : Entry k) : State :=
  { s with application := .locking ⟨k, e⟩ }

def acceptedTransaction (cfg : Config) (s : State) (t : TransactionMetadata) : State :=
  if cfg.storeTransactions then s.queue .transactionMetadata t else s

def appliedTransaction (cfg : Config) (s : State) (t : TransactionTrace) : State :=
  if !cfg.isProducer && t.producerBlockId.isNone then s else s.queue .transactionTrace t

def appliedIrreversibleBlock (cfg : Config) (s : State) (bs : BlockState) : State :=
  if cfg.storeBlocks || cfg.storeBlockStates || cfg.storeTransactions then
    s.queue .irreversibleBlockState bs
  else s

def acceptedBlock (cfg : Config) (s : State) (bs : BlockState) : State :=
  let s := if !s.startBlockReached && cfg.startBlockNum ≤ bs.blockNum then
    { s with startBlockReached := true } else s
  if cfg.storeBlocks || cfg.storeBlockStates then s.queue .blockState bs else s

def onSignal (cfg : Config) (s : State) : Signal → State
  | .acceptedTransaction t => s.acceptedTransaction cfg t
  | .appliedTransaction t => s.appliedTransaction cfg t
  | .acceptedBlock bs => s.acceptedBlock cfg bs
  | .appliedIrreversibleBlock bs => s.appliedIrreversibleBlock cfg bs

def lock (s : State) (t : Thread) (f : State → State) : Except Unit State :=
  if s.mtx = none then .ok (f { s with mtx := some t }) else .error ()

/-- A thread that sleeps on the condition wakes up and goes for the mutex again. -/
def notifyOne (s : State) : State :=
  if s.consume = .waiting then { s with consume := .waking } else s

/-- Under the mutex: a queue that is too long is left alone for a while first. -/
def checkSize (cfg : Config) (s : State) (i : Item) : State :=
  if cfg.maxQueueSize < (s.queues i.1).length then
    { s with mtx := none, application := .backingOff i }
  else { s with queueSleepTime := s.queueSleepTime - 10, application := .pushing i }

def emplaceBack (s : State) (i : Item) : State :=
  { s with
    queues := Function.update s.queues i.1 (s.queues i.1 ++ [i.2])
    queued := s.queued ++ [i]
    application := .unlocking }

/-- The next step in `queue` or in the destructor. -/
def applicationStep (cfg : Config) (s : State) : Except Unit State :=
  match s.application with
  | .idle => .error ()
  | .locking i => s.lock .application fun s => { s with application := .holding i }
  | .holding i => .ok (s.checkSize cfg i)
  | .backingOff i =>
    .ok { s.notifyOne with
      queueSleepTime := s.queueSleepTime + 10
      application := .sleeping i }
  | .sleeping i => .ok { s with application := .relocking i }
  | .relocking i => s.lock .application fun s => { s with application := .pushing i }
  | .pushing i => .ok (s.emplaceBack i)
  | .unlocking => .ok { s with mtx := none, application := .notifying }
  | .notifying => .ok { s.notifyOne with application := .idle }
  | .closing => .ok { s with done := true, application := .closingNotify }
  | .closingNotify => .ok { s.notifyOne with application := .joining }
  | .joining =>
    if s.consume = .finished ∨ s.consume = .failed then .ok { s with application := .joined }
    else .error ()
  | .joined => .error ()

/-! ### The consume thread -/

/-- Under the mutex: every queue with something in it becomes the process queue. -/
def capture (s : State) : State :=
  { s with
    queues := fun _ => []
    processQueues := fun k => if s.queues k = [] then s.processQueues k else s.queues k
    consume := .unlocking s.queuesEmpty }

/-- The front of a process queue is processed and taken off. -/
def process (s : State) (k : Stream) (e : Entry k) (rest : List (Entry k)) : State :=
  { s with
    processQueues := Function.update s.processQueues k rest
    processed := s.processed ++ [(⟨k, e⟩, s.startBlockReached)] }

/-- The loops over the process queues, and then the end of the round. -/
def processNext (s : State) (last : Bool) : List Stream → State
  | [] => { s with consume := if last && s.done then .finished else .locking }
  | k :: ks =>
    match s.processQueues k with
    | [] => s.processNext last ks
    | e :: rest => s.process k e rest

/-- The next step in `consume_blocks`. -/
def consumeStep (s : State) : Except Unit State :=
  match s.consume with
  | .acquiring => .ok { s with consume := .locking }
  | .locking => s.lock .consume fun s => { s with consume := .testing }
  | .testing =>
    .ok { s with consume := if s.queuesEmpty && !s.done then .suspending else .capturing }
  | .suspending => .ok { s with mtx := none, consume := .waiting }
  | .waiting => .error ()
  | .waking => s.lock .consume fun s => { s with consume := .testing }
  | .capturing => .ok s.capture
  | .unlocking last => .ok { s with mtx := none, consume := .processing last }
  | .processing last => .ok (s.processNext last Stream.all)
  | .finished => .error ()
  | .failed => .error ()

end State

/-- A thread takes its next step, the chain signals something or the plugin is shut down,
the condition wakes without a reason, or there is no connection to the database. -/
inductive Event
  | signal (sig : Signal)
  | shutdown
  | application
  | consume
  | spurious
  | acquireFails
  deriving DecidableEq

namespace State

def step (cfg : Config) (s : State) : Event → Except Unit State
  | .signal sig =>
    match s.application with
    | .idle => .ok (s.onSignal cfg sig)
    | _ => .error ()
  | .shutdown =>
    match s.application with
    | .idle => .ok { s with application := .closing }
    | _ => .error ()
  | .application => s.applicationStep cfg
  | .consume => s.consumeStep
  | .spurious => if s.consume = .waiting then .ok { s with consume := .waking } else .error ()
  | .acquireFails =>
    if s.consume = .acquiring then .ok { s with consume := .failed } else .error ()

/-- The queues as they are for themselves. -/
def belt (s : State) : Belt Entry where
  waiting := s.queues
  batch := s.processQueues
  entered := s.queued
  left := s.processed.map Prod.fst

end State

end Xidata.Mongo
