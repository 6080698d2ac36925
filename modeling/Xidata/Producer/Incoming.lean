import Xidata.Producer.Plugin

/-!
Incoming transactions.  A transaction comes with a callback, and it is answered at once or
queued until a block is started, which takes the queue in the order of its arrival, between
the scheduled transactions and after them.  The state of the chain is of any type: its
functions, the clock among them, are given by a `Controller`.  The weight of an incoming
transaction is a floating point number in the source and of any type with the operations
that are used.
-/

namespace Xidata.Producer

open Net (PublicKey)

abbrev TransactionId := ℕ

structure Transaction where
  id : TransactionId
  expiration : ℤ
  deriving DecidableEq

inductive ChainException
  | expiredTxException (id : TransactionId)
  | txDuplicate (id : TransactionId)
  | blockCpuUsageExceeded
  | blockNetUsageExceeded
  | deadlineException
  | other (code : ℤ)
  deriving DecidableEq

/-- A transaction that has been pushed has a trace, which may tell of a failure, or an
exception is thrown. -/
inductive PushOutcome
  | trace (except : Option ChainException)
  | thrown (e : ChainException)
  deriving DecidableEq

/-- What the plugin asks the chain for, with the state of the chain afterwards. -/
structure Controller (χ : Type) where
  now : χ → ℤ × χ
  isKnownUnexpiredTransaction : χ → TransactionId → Bool
  pushTransaction : χ → Transaction → ℤ → PushOutcome × χ
  pushScheduledTransaction : χ → TransactionId → ℤ → PushOutcome × χ
  unappliedTransactions : χ → List Transaction
  scheduledTransactions : χ → List TransactionId
  dropUnappliedTransaction : χ → Transaction → χ
  dropAllUnappliedTransactions : χ → χ
  deferredTrxExpirationWindow : χ → ℤ

/-- An entry of the queue.  The callbacks are numbered. -/
structure Incoming where
  trx : Transaction
  persistUntilExpired : Bool
  next : ℕ
  deriving DecidableEq

structure TransactionIdWithExpiry where
  trxId : TransactionId
  expiry : ℤ
  deriving DecidableEq

/-- `answers` has the callbacks that have run, `acks` what has been published of it; as many
callbacks as `submitted` have been handed in.  `handled` is what the last `start_block` has
taken from the queue. -/
structure Intake (χ ω : Type) where
  plugin : Plugin
  chain : χ
  maxTransactionTimeMs : ℤ := 30
  incomingTrxWeight : ω
  incomingDeferRatio : ω
  pendingIncomingTransactions : List Incoming := []
  persistentTransactions : List TransactionIdWithExpiry := []
  blacklistedTransactions : List TransactionIdWithExpiry := []
  answers : List (ℕ × Option ChainException) := []
  acks : List (Option ChainException × Transaction) := []
  submitted : ℕ := 0
  handled : List Incoming := []

def failureIsSubjective (e : ChainException) (deadlineIsSubjective : Bool) : Bool :=
  match e with
  | .blockCpuUsageExceeded => true
  | .blockNetUsageExceeded => true
  | .deadlineException => deadlineIsSubjective
  | _ => false

/-- No second entry is made for one transaction. -/
def insertTransaction (index : List TransactionIdWithExpiry) (entry : TransactionIdWithExpiry) :
    List TransactionIdWithExpiry :=
  if index.any (·.trxId = entry.trxId) then index else index ++ [entry]

namespace Intake

variable {χ ω : Type} (c : Controller χ)

/-- The reading of the clock, which is `tick` afterwards. -/
def clock (s : Intake χ ω) : ℤ := (c.now s.chain).1

def tick (s : Intake χ ω) : Intake χ ω := { s with chain := (c.now s.chain).2 }

/-- The deadline for a transaction, and whether it is that of the block. -/
def deadline (s : Intake χ ω) (now blockTime : ℤ) : ℤ × Bool :=
  let deadline := now + s.maxTransactionTimeMs * 1000
  if s.maxTransactionTimeMs < 0 ∨
      s.plugin.pendingBlockMode = .producing ∧ blockTime < deadline then (blockTime, true)
  else (deadline, false)

/-! ### One transaction -/

def queue (s : Intake χ ω) (e : Incoming) : Intake χ ω :=
  { s with pendingIncomingTransactions := s.pendingIncomingTransactions ++ [e] }

def sendResponse (s : Intake χ ω) (e : Incoming) (response : Option ChainException) :
    Intake χ ω :=
  { s with
    answers := s.answers ++ [(e.next, response)]
    acks := s.acks ++ [(response, e.trx)] }

def persist (s : Intake χ ω) (e : Incoming) : Intake χ ω :=
  if e.persistUntilExpired then
    { s with persistentTransactions :=
        insertTransaction s.persistentTransactions ⟨e.trx.id, e.trx.expiration⟩ }
  else s

def onIncomingTransactionAsync (s : Intake χ ω) (e : Incoming) : Intake χ ω :=
  match s.plugin.pending with
  | none => s.queue e
  | some pbs =>
    let blockTime := pbs.timestamp
    if e.trx.expiration < blockTime then s.sendResponse e (some (.expiredTxException e.trx.id))
    else if c.isKnownUnexpiredTransaction s.chain e.trx.id then
      s.sendResponse e (some (.txDuplicate e.trx.id))
    else
      let deadline := s.deadline (s.clock c) blockTime
      let s := s.tick c
      let pushed := c.pushTransaction s.chain e.trx deadline.1
      let s := { s with chain := pushed.2 }
      match pushed.1 with
      | .thrown err => s.sendResponse e (some err)
      | .trace (some err) =>
        -- What did not fit into this block is tried again with the next one.
        if failureIsSubjective err deadline.2 then s.queue e else s.sendResponse e (some err)
      | .trace none => (s.persist e).sendResponse e none

/-! ### The transactions of a block that is started -/

/-- The loop over the transactions that were applied before; the result tells whether the
block is exhausted. -/
def applyUnapplied (blockTime : ℤ) : List Transaction → Bool → Intake χ ω → Bool × Intake χ ω
  | [], exhausted, s => (exhausted, s)
  | trx :: trxs, exhausted, s =>
    if exhausted ∨ blockTime ≤ s.clock c then (true, s.tick c)
    else
      let s := s.tick c
      let deadline := s.deadline (s.clock c) blockTime
      let s := s.tick c
      let pushed := c.pushTransaction s.chain trx deadline.1
      let s := { s with chain := pushed.2 }
      match pushed.1 with
      | .trace (some err) =>
        if failureIsSubjective err deadline.2 then applyUnapplied blockTime trxs true s
        else
          let s := { s with chain := c.dropUnappliedTransaction s.chain trx }
          applyUnapplied blockTime trxs false s
      | _ => applyUnapplied blockTime trxs false s

/-- The persisted transactions that have expired with the block are removed. -/
def expirePersisted (s : Intake χ ω) (blockTime : ℤ) : Intake χ ω :=
  { s with
    persistentTransactions := s.persistentTransactions.filter fun t => blockTime < t.expiry }

def expireBlacklisted (s : Intake χ ω) (now : ℤ) : Intake χ ω :=
  { s with
    blacklistedTransactions := s.blacklistedTransactions.filter fun t => now < t.expiry }

def setWeight (s : Intake χ ω) (weight : ω) : Intake χ ω := { s with incomingTrxWeight := weight }

def isPersisted (s : Intake χ ω) (trx : Transaction) : Bool :=
  s.persistentTransactions.any (·.trxId = trx.id)

/-- An unapplied transaction that has expired, or that no local producer will need. -/
def drops (s : Intake χ ω) (blockTime : ℤ) (trx : Transaction) : Bool :=
  trx.expiration < blockTime || !s.isPersisted trx && s.plugin.producers.isEmpty

def applies (s : Intake χ ω) (blockTime : ℤ) (trx : Transaction) : Bool :=
  !s.drops blockTime trx && (s.isPersisted trx || s.plugin.pendingBlockMode = .producing)

def processUnapplied (blockTime : ℤ) (s : Intake χ ω) : Bool × Intake χ ω :=
  if s.plugin.producers.isEmpty ∧ s.persistentTransactions.isEmpty then
    (false, { s with chain := c.dropAllUnappliedTransactions s.chain })
  else
    let unapplied := c.unappliedTransactions s.chain
    let chain := (unapplied.filter (s.drops blockTime)).foldl c.dropUnappliedTransaction s.chain
    applyUnapplied c blockTime (unapplied.filter (s.applies blockTime)) false
      { s with chain := chain }

/-- The first entry of the queue is taken and handled. -/
def handle (s : Intake χ ω) (e : Incoming) (rest : List Incoming) : Intake χ ω :=
  onIncomingTransactionAsync c
    { s with pendingIncomingTransactions := rest, handled := s.handled ++ [e] } e

/-- The loop between two scheduled transactions; `orig` counts the entries that are left of
those queued when the block was started. -/
def drainWeighted [One ω] [Sub ω] [LE ω] [DecidableLE ω] : ℕ → Intake χ ω → ℕ × Intake χ ω
  | 0, s => (0, s)
  | orig + 1, s =>
    if 1 ≤ s.incomingTrxWeight then
      match s.pendingIncomingTransactions with
      | [] => (orig + 1, s)
      | e :: rest =>
        drainWeighted orig (handle c (s.setWeight (s.incomingTrxWeight - 1)) e rest)
    else (orig + 1, s)

def pushScheduled (s : Intake χ ω) (blockTime : ℤ) (trx : TransactionId) : Bool × Intake χ ω :=
  let deadline := s.deadline (s.clock c) blockTime
  let s := s.tick c
  let pushed := c.pushScheduledTransaction s.chain trx deadline.1
  let s := { s with chain := pushed.2 }
  match pushed.1 with
  | .trace (some err) =>
    if failureIsSubjective err deadline.2 then (true, s)
    else
      -- It took too long, and is not to be tried again before it expires.
      let expiration := s.clock c + c.deferredTrxExpirationWindow (c.now s.chain).2 * 1000000
      let s := s.tick c
      (false, { s with blacklistedTransactions :=
        insertTransaction s.blacklistedTransactions ⟨trx, expiration⟩ })
  | _ => (false, s)

variable [Zero ω] [One ω] [Add ω] [Sub ω] [LE ω] [DecidableLE ω]

/-- The loop over the scheduled transactions. -/
def applyScheduled (blockTime : ℤ) :
    List TransactionId → ℕ → Bool → Intake χ ω → ℕ × Bool × Intake χ ω
  | [], orig, exhausted, s => (orig, exhausted, s)
  | trx :: trxs, orig, exhausted, s =>
    if exhausted ∨ blockTime ≤ s.clock c then (orig, true, s.tick c)
    else
      let drained := drainWeighted c orig (s.tick c)
      let orig := drained.1
      let s := drained.2
      if blockTime ≤ s.clock c then (orig, true, s.tick c)
      else
        let s := s.tick c
        -- A blacklisted transaction is passed over, and the weight stays what it is.
        if s.blacklistedTransactions.any (·.trxId = trx) then
          applyScheduled blockTime trxs orig false s
        else
          let pushed := s.pushScheduled c blockTime trx
          let s := pushed.2
          let weight := if orig = 0 then 0 else s.incomingTrxWeight + s.incomingDeferRatio
          applyScheduled blockTime trxs orig pushed.1 (s.setWeight weight)

def processScheduled (blockTime : ℤ) (orig : ℕ) (exhausted : Bool) (s : Intake χ ω) :
    ℕ × Bool × Intake χ ω :=
  if s.plugin.pendingBlockMode = .producing then
    let s := (s.tick c).expireBlacklisted (s.clock c)
    applyScheduled c blockTime (c.scheduledTransactions s.chain) orig exhausted s
  else (orig, exhausted, s)

inductive StartBlockResult
  | succeeded | failed | waiting | exhausted
  deriving DecidableEq

/-- The loop over what is left of the queue. -/
def drainIncoming (blockTime : ℤ) : ℕ → Intake χ ω → StartBlockResult × Intake χ ω
  | 0, s => (.succeeded, s)
  | orig + 1, s =>
    match s.pendingIncomingTransactions with
    | [] => (.succeeded, s)
    | e :: rest =>
      let s := handle c s e rest
      if blockTime ≤ s.clock c then (.exhausted, s.tick c)
      else drainIncoming blockTime orig (s.tick c)

def processTransactions (blockTime : ℤ) (s : Intake χ ω) : StartBlockResult × Intake χ ω :=
  let s := s.expirePersisted blockTime
  let orig := s.pendingIncomingTransactions.length
  let unapplied := processUnapplied c blockTime s
  let scheduled := processScheduled c blockTime orig unapplied.1 unapplied.2
  let s := scheduled.2.2
  if scheduled.2.1 then (.exhausted, s)
  else if blockTime ≤ s.clock c then (.exhausted, s.tick c)
  else drainIncoming c blockTime scheduled.1 ((s.tick c).setWeight 0)

def startPlugin (s : Intake χ ω) (now : ℤ) (key : Option PublicKey) : Intake χ ω :=
  { s with plugin := s.plugin.startBlock now key, handled := [] }

def startBlock (s : Intake χ ω) (now : ℤ) (key : Option PublicKey) :
    StartBlockResult × Intake χ ω :=
  let waits := s.plugin.waits now
  let s := s.startPlugin now key
  if waits then (.waiting, s)
  else match s.plugin.pending with
    | none => (.failed, s)
    | some pbs => processTransactions c pbs.timestamp s

end Intake

inductive IntakeEvent (χ ω : Type)
  | submit (trx : Transaction) (persistUntilExpired : Bool)
  | startBlock (now : ℤ) (key : Option PublicKey)
  /-- Another event of the plugin. -/
  | plugin (e : Event)
  /-- The state of the chain changes. -/
  | chain (chain : χ)
  | updateRuntimeOptions (maxTransactionTimeMs : ℤ) (incomingDeferRatio : ω)

namespace Intake

variable {χ ω : Type} [Zero ω] [One ω] [Add ω] [Sub ω] [LE ω] [DecidableLE ω]

def step (c : Controller χ) (s : Intake χ ω) : IntakeEvent χ ω → Except Unit (Intake χ ω)
  | .submit trx persistUntilExpired => .ok
      (onIncomingTransactionAsync c { s with submitted := s.submitted + 1 }
        ⟨trx, persistUntilExpired, s.submitted⟩)
  | .startBlock now key => .ok (s.startBlock c now key).2
  | .plugin (.startBlock _ _) => .error ()
  | .plugin e => (s.plugin.step e).map fun plugin => { s with plugin := plugin }
  | .chain chain => .ok { s with chain := chain }
  | .updateRuntimeOptions maxTransactionTimeMs incomingDeferRatio => .ok { s with
      maxTransactionTimeMs := maxTransactionTimeMs
      incomingDeferRatio := incomingDeferRatio }

end Intake

end Xidata.Producer
