import Xidata.Library.Rollback
import Xidata.Net.Connection

/-!
What the socket of a connection is handed.  As long as no write fails, a non-empty
`outQueue` is the sign of a write in progress, and nothing that is to be sent stays
behind once there is none.  On a connection that stays open, the buffers go out in
the order in which they were queued, each once.  A write that fails leaves its
buffers in `outQueue` for good.
-/

namespace Xidata.Net

open Connection

inductive WriteEvent
  | queueWrite (buff : Bytes) (triggerSend : Bool) (callback : Callback)
  | enqueueSyncBlock (fetchBlockByNumber : UInt32 → Option SignedBlock)
  | syncRequest (fetchBlockByNumber : UInt32 → Option SignedBlock) (msg : SyncRequestMessage)
  /-- The `k`-th outstanding write is reported back. -/
  | writeDone (fetchBlockByNumber : UInt32 → Option SignedBlock) (k : ℕ) (failed : Bool)
  | flushQueues
  | close
  /-- The connection is dialed again, on the same object. -/
  | reconnect

section Step

variable (pack : NetMessage → Bytes)

def writeStep (c : Connection) : WriteEvent → Except Unit Connection
  | .queueWrite buff triggerSend callback => .ok (c.queueWrite buff triggerSend callback)
  | .enqueueSyncBlock fetch => .ok (c.enqueueSyncBlock pack fetch)
  | .syncRequest fetch msg => .ok (c.handleSyncRequest pack fetch msg)
  | .writeDone fetch k failed =>
      if k < c.socket.outstanding.length then .ok (c.writeDone pack fetch k failed) else .error ()
  | .flushQueues => .ok c.flushQueues
  | .close => .ok c.close
  | .reconnect =>
      if c.socket.isOpen then .error ()
      else .ok { c with socket := { c.socket with isOpen := true }, connecting := true }

end Step

variable {pack : NetMessage → Bytes} {c : Connection}

/-! ### A write in progress -/

/-- The writes that are outstanding when `q` has been handed to the socket. -/
def inFlight (q : List QueuedWrite) : List (List Bytes) :=
  if q = [] then [] else [q.map QueuedWrite.buff]

@[simp] theorem inFlight_nil : inFlight [] = [] := rfl

theorem inFlight_of_ne {q : List QueuedWrite} (h : q ≠ []) :
    inFlight q = [q.map QueuedWrite.buff] := if_neg h

theorem inFlight_eq_nil {q : List QueuedWrite} : inFlight q = [] ↔ q = [] := by
  constructor
  · intro h
    by_contra hne
    rw [inFlight_of_ne hne] at h
    cases h
  · rintro rfl
    rfl

/-- `outQueue` holds the buffers of the one outstanding write. -/
def InProgress (c : Connection) : Prop := c.socket.outstanding = inFlight c.outQueue

theorem InProgress.congr {c' : Connection} (h : InProgress c) (hout : c'.outQueue = c.outQueue)
    (hsocket : c'.socket.outstanding = c.socket.outstanding) : InProgress c' := by
  rw [InProgress, hout, hsocket]
  exact h

theorem doQueueWrite_of_busy (h : c.outQueue ≠ []) : c.doQueueWrite = c := if_pos (.inr h)

/-- What `doQueueWrite` does when no write is in progress. -/
theorem doQueueWrite_cases (h : c.outQueue = []) :
    c.writeQueue = [] ∧ c.doQueueWrite = c ∨
      c.writeQueue ≠ [] ∧ c.socket.isOpen = true ∧ c.doQueueWrite = c.handOver ∨
      c.writeQueue ≠ [] ∧ c.socket.isOpen = false ∧ c.doQueueWrite = c.close := by
  unfold doQueueWrite
  by_cases hqueued : c.writeQueue = []
  · exact .inl ⟨hqueued, if_pos (.inl hqueued)⟩
  · have hwrite : ¬ (c.writeQueue = [] ∨ c.outQueue ≠ []) := not_or.mpr ⟨hqueued, not_not.mpr h⟩
    rw [if_neg hwrite]
    cases hopen : c.socket.isOpen with
    | true => exact .inr (.inl ⟨hqueued, rfl, if_pos rfl⟩)
    | false => exact .inr (.inr ⟨hqueued, rfl, if_neg Bool.false_ne_true⟩)

theorem InProgress.handOver (h : InProgress c) (hout : c.outQueue = [])
    (hqueued : c.writeQueue ≠ []) : InProgress c.handOver := by
  have hsocket : c.socket.outstanding = [] := by
    rw [h, hout, inFlight_nil]
  have hnew : c.handOver.outQueue = c.writeQueue := by
    rw [Connection.handOver, hout, List.nil_append]
  have hwrites : c.handOver.socket.outstanding = [c.writeQueue.map QueuedWrite.buff] := by
    rw [Connection.handOver, hsocket, List.nil_append]
  rw [InProgress, hnew, hwrites, inFlight_of_ne hqueued]

theorem InProgress.doQueueWrite (h : InProgress c) : InProgress c.doQueueWrite := by
  by_cases hout : c.outQueue = []
  · obtain ⟨-, heq⟩ | ⟨hqueued, -, heq⟩ | ⟨-, -, heq⟩ := doQueueWrite_cases hout
    · rw [heq]
      exact h
    · rw [heq]
      exact h.handOver hout hqueued
    · rw [heq]
      exact h.congr rfl rfl
  · rw [doQueueWrite_of_busy hout]
    exact h

/-- With no write in progress, whatever is to be sent is handed over. -/
theorem writeQueue_doQueueWrite (h : c.outQueue = []) : c.doQueueWrite.writeQueue = [] := by
  obtain ⟨hqueued, heq⟩ | ⟨-, -, heq⟩ | ⟨-, -, heq⟩ := doQueueWrite_cases h <;> rw [heq]
  · exact hqueued
  · rfl
  · rfl

theorem handed_doQueueWrite (hopen : c.socket.isOpen = true) (h : c.outQueue = []) :
    c.doQueueWrite.log.handed = c.log.handed ++ c.writeQueue.map QueuedWrite.buff := by
  obtain ⟨hqueued, heq⟩ | ⟨-, -, heq⟩ | ⟨-, hclosed, -⟩ := doQueueWrite_cases h
  · rw [heq, hqueued, List.map_nil, List.append_nil]
  · rw [heq]
    rfl
  · rw [hopen] at hclosed
    cases hclosed

theorem InProgress.queueWrite (h : InProgress c) (buff : Bytes) (triggerSend : Bool)
    (callback : Callback) : InProgress (c.queueWrite buff triggerSend callback) := by
  have hpushed : InProgress (c.pushWrite ⟨buff, callback⟩) := h.congr rfl rfl
  unfold Connection.queueWrite
  dsimp only
  split
  · exact hpushed.doQueueWrite
  · exact hpushed

/-- A refill queues at most one block, which does not close the connection. -/
theorem enqueueSyncBlock_cases (pack : NetMessage → Bytes) (fetch : UInt32 → Option SignedBlock)
    (c : Connection) :
    ∃ requested, c.enqueueSyncBlock pack fetch = { c with peerRequested := requested } ∨
      ∃ buff triggerSend, c.enqueueSyncBlock pack fetch =
        { c with peerRequested := requested }.queueWrite buff triggerSend (.sent .noReason) := by
  unfold Connection.enqueueSyncBlock
  cases c.peerRequested with
  | none => exact ⟨c.peerRequested, .inl rfl⟩
  | some s =>
      dsimp only
      cases fetch (s.last + 1) with
      | none => exact ⟨_, .inl rfl⟩
      | some sb => exact ⟨_, .inr ⟨_, _, rfl⟩⟩

theorem InProgress.request (h : InProgress c) (requested : Option SyncState) :
    InProgress { c with peerRequested := requested } := h

theorem InProgress.enqueueSyncBlock (h : InProgress c)
    (fetch : UInt32 → Option SignedBlock) : InProgress (c.enqueueSyncBlock pack fetch) := by
  obtain ⟨requested, heq | ⟨buff, triggerSend, heq⟩⟩ := enqueueSyncBlock_cases pack fetch c
  · rw [heq]
    exact h.request requested
  · rw [heq]
    exact (h.request requested).queueWrite buff triggerSend (.sent .noReason)

/-! ### Callbacks -/

/-- The callback closes the connection. -/
def Callback.closes : Callback → Prop
  | .sent closeAfterSend => closeAfterSend ≠ .noReason
  | .decrInFlight _ => False

theorem call_eq {m : QueuedWrite} (h : ¬ m.callback.closes) :
    c.call m = { c with log := { c.log with called := c.log.called ++ [m] } } := by
  unfold Connection.call
  cases hcallback : m.callback with
  | sent closeAfterSend =>
      rw [hcallback] at h
      exact if_neg h
  | decrInFlight id => rfl

/-- Callbacks do not touch what is being written. -/
theorem call_frame (c : Connection) (m : QueuedWrite) :
    (c.call m).outQueue = c.outQueue ∧
      (c.call m).socket.outstanding = c.socket.outstanding := by
  unfold Connection.call
  cases m.callback with
  | sent closeAfterSend =>
      dsimp only
      split <;> exact ⟨rfl, rfl⟩
  | decrInFlight id => exact ⟨rfl, rfl⟩

theorem calls_frame (q : List QueuedWrite) (c : Connection) :
    (q.foldl call c).outQueue = c.outQueue ∧
      (q.foldl call c).socket.outstanding = c.socket.outstanding := by
  induction q generalizing c with
  | nil => exact ⟨rfl, rfl⟩
  | cons m q ih =>
      obtain ⟨hout, hsocket⟩ := ih (c.call m)
      obtain ⟨hout', hsocket'⟩ := call_frame c m
      exact ⟨hout.trans hout', hsocket.trans hsocket'⟩

theorem calls_eq {q : List QueuedWrite} (h : ∀ m ∈ q, ¬ m.callback.closes) (c : Connection) :
    q.foldl call c = { c with log := { c.log with called := c.log.called ++ q } } := by
  induction q generalizing c with
  | nil => simp only [List.foldl_nil, List.append_nil]
  | cons m q ih =>
      rw [List.foldl_cons, ih (fun m' hm' => h m' (List.mem_cons_of_mem m hm')),
        call_eq (h m List.mem_cons_self)]
      simp only [List.append_assoc, List.singleton_append]

/-! ### The handler of a write -/

/-- The connection when the `k`-th outstanding write is reported back, before its handler
does anything. -/
def reported (c : Connection) (k : ℕ) (failed : Bool) : Connection :=
  { c with
    socket := { c.socket with outstanding := c.socket.outstanding.eraseIdx k }
    log := { c.log with
      written := c.log.written ++ if failed then [] else (c.socket.outstanding[k]?).getD [] } }

theorem writeDone_eq (fetch : UInt32 → Option SignedBlock) (c : Connection) (k : ℕ)
    (failed : Bool) :
    c.writeDone pack fetch k failed =
      if failed then (c.outQueue.foldl call (reported c k failed)).close
      else ({ c.outQueue.foldl call (reported c k failed) with
        outQueue := [] }.enqueueSyncBlock pack fetch).doQueueWrite := rfl

/-- A write is reported back only when `outQueue` holds its buffers, and there is none
left then. -/
theorem InProgress.reported (h : InProgress c) {k : ℕ} (hk : k < c.socket.outstanding.length) :
    c.outQueue ≠ [] ∧ k = 0 ∧ c.socket.outstanding = [c.outQueue.map QueuedWrite.buff] := by
  have hout : c.outQueue ≠ [] := fun hnil => by
    rw [h, hnil] at hk
    exact absurd hk (Nat.not_lt_zero k)
  have hone : c.socket.outstanding = [c.outQueue.map QueuedWrite.buff] :=
    h.trans (inFlight_of_ne hout)
  rw [hone, List.length_singleton, Nat.lt_one_iff] at hk
  exact ⟨hout, hk, hone⟩

/-- After the callbacks of a write nothing is outstanding. -/
theorem InProgress.called (h : InProgress c) {k : ℕ} (hk : k < c.socket.outstanding.length)
    (failed : Bool) :
    (c.outQueue.foldl call (Net.reported c k failed)).socket.outstanding = [] := by
  obtain ⟨-, rfl, hone⟩ := h.reported hk
  rw [(calls_frame _ _).2, Net.reported, hone]
  rfl

theorem InProgress.writeDone (h : InProgress c) (fetch : UInt32 → Option SignedBlock) {k : ℕ}
    (hk : k < c.socket.outstanding.length) : InProgress (c.writeDone pack fetch k false) := by
  rw [writeDone_eq, if_neg Bool.false_ne_true]
  refine InProgress.doQueueWrite (InProgress.enqueueSyncBlock ?_ fetch)
  exact h.called hk false

/-! ### A connection that stays open -/

/-- The event neither closes nor flushes the connection. -/
def WriteEvent.KeepsOpen : WriteEvent → Prop
  | .queueWrite _ _ callback => ¬ callback.closes
  | .enqueueSyncBlock _ => True
  | .syncRequest _ msg => msg.endBlock ≠ 0
  | .writeDone _ _ failed => failed = false
  | _ => False

/-- The writes of an open connection up to now: those that were called back, then those
being written, then those that wait are all that were queued, in this order. -/
structure InOrder (c : Connection) : Prop where
  isOpen : c.socket.isOpen = true
  keeps : ∀ m ∈ c.outQueue ++ c.writeQueue, ¬ m.callback.closes
  inProgress : InProgress c
  queued : c.log.queued = c.log.called ++ c.outQueue ++ c.writeQueue
  handed : c.log.handed = (c.log.called ++ c.outQueue).map QueuedWrite.buff
  written : c.log.written = c.log.called.map QueuedWrite.buff

theorem InProgress.outstanding_le (h : InProgress c) : c.socket.outstanding.length ≤ 1 := by
  rw [h, inFlight]
  split
  · exact Nat.zero_le 1
  · exact le_rfl

theorem InOrder.request (h : InOrder c) (requested : Option SyncState) :
    InOrder { c with peerRequested := requested } :=
  ⟨h.isOpen, h.keeps, h.inProgress, h.queued, h.handed, h.written⟩

theorem InOrder.pushWrite (h : InOrder c) {m : QueuedWrite} (hm : ¬ m.callback.closes) :
    InOrder (c.pushWrite m) where
  isOpen := h.isOpen
  keeps m' hm' := by
    rw [Connection.pushWrite, ← List.append_assoc, List.mem_append, List.mem_singleton] at hm'
    obtain hm' | rfl := hm'
    · exact h.keeps m' hm'
    · exact hm
  inProgress := h.inProgress
  queued := by
    rw [Connection.pushWrite, ← List.append_assoc, h.queued]
  handed := h.handed
  written := h.written

theorem InOrder.doQueueWrite (h : InOrder c) : InOrder c.doQueueWrite := by
  by_cases hout : c.outQueue = []
  · obtain ⟨-, heq⟩ | ⟨hqueued, -, heq⟩ | ⟨-, hclosed, -⟩ := doQueueWrite_cases hout
    · rw [heq]
      exact h
    · rw [heq]
      refine ⟨h.isOpen, fun m hm => h.keeps m ?_, h.inProgress.handOver hout hqueued, ?_, ?_,
        h.written⟩
      · rwa [Connection.handOver, List.append_nil] at hm
      · rw [Connection.handOver, List.append_nil, ← List.append_assoc, h.queued]
      · rw [Connection.handOver, h.handed, ← List.map_append, List.append_assoc]
    · rw [h.isOpen] at hclosed
      cases hclosed
  · rw [doQueueWrite_of_busy hout]
    exact h

theorem InOrder.queueWrite (h : InOrder c) (buff : Bytes) (triggerSend : Bool)
    {callback : Callback} (hcallback : ¬ callback.closes) :
    InOrder (c.queueWrite buff triggerSend callback) := by
  have hpushed : InOrder (c.pushWrite ⟨buff, callback⟩) := h.pushWrite hcallback
  unfold Connection.queueWrite
  dsimp only
  split
  · exact hpushed.doQueueWrite
  · exact hpushed

theorem InOrder.enqueueSyncBlock (h : InOrder c) (fetch : UInt32 → Option SignedBlock) :
    InOrder (c.enqueueSyncBlock pack fetch) := by
  obtain ⟨requested, heq | ⟨buff, triggerSend, heq⟩⟩ := enqueueSyncBlock_cases pack fetch c
  · rw [heq]
    exact h.request requested
  · rw [heq]
    exact (h.request requested).queueWrite buff triggerSend (not_not.mpr rfl)

/-- When a write is done its callbacks have run, and the next one takes all that waits. -/
theorem InOrder.writeDone (h : InOrder c) (fetch : UInt32 → Option SignedBlock) {k : ℕ}
    (hk : k < c.socket.outstanding.length) : InOrder (c.writeDone pack fetch k false) := by
  obtain ⟨-, rfl, hone⟩ := h.inProgress.reported hk
  have hcalls : ∀ m ∈ c.outQueue, ¬ m.callback.closes := fun m hm =>
    h.keeps m (List.mem_append_left _ hm)
  have hwritten : (c.socket.outstanding[0]?).getD [] = c.outQueue.map QueuedWrite.buff := by
    rw [hone]
    rfl
  rw [writeDone_eq, if_neg Bool.false_ne_true, calls_eq hcalls]
  refine InOrder.doQueueWrite (InOrder.enqueueSyncBlock ?_ fetch)
  refine ⟨h.isOpen, fun m hm => h.keeps m (List.mem_append_right _ hm), ?_, ?_, ?_, ?_⟩
  · show c.socket.outstanding.eraseIdx 0 = []
    rw [hone]
    rfl
  · show c.log.queued = c.log.called ++ c.outQueue ++ [] ++ c.writeQueue
    rw [h.queued, List.append_nil]
  · show c.log.handed = (c.log.called ++ c.outQueue ++ []).map QueuedWrite.buff
    rw [h.handed, List.append_nil]
  · show c.log.written ++ (c.socket.outstanding[0]?).getD [] =
      (c.log.called ++ c.outQueue).map QueuedWrite.buff
    rw [h.written, hwritten, List.map_append]

theorem InOrder.step {c' : Connection} {e : WriteEvent} (h : InOrder c) (he : e.KeepsOpen)
    (hstep : writeStep pack c e = .ok c') : InOrder c' := by
  cases e with
  | queueWrite buff triggerSend callback =>
      cases hstep
      exact h.queueWrite buff triggerSend he
  | enqueueSyncBlock fetch =>
      cases hstep
      exact h.enqueueSyncBlock fetch
  | syncRequest fetch msg =>
      cases hstep
      rw [handleSyncRequest, if_neg he]
      exact (h.request _).enqueueSyncBlock fetch
  | writeDone fetch k failed =>
      cases he
      rw [writeStep] at hstep
      split at hstep
      · rename_i hk
        cases hstep
        exact h.writeDone fetch hk
      · cases hstep
  | flushQueues => exact he.elim
  | close => exact he.elim
  | reconnect => exact he.elim

/-- After a write nothing waits unless another write is in progress. -/
def Drains (_ : Connection) (e : WriteEvent) (c' : Connection) : Prop :=
  ∀ fetch k, e = .writeDone fetch k false → c'.socket.outstanding = [] →
    c'.outQueue = [] ∧ c'.writeQueue = []

theorem queueWrite_drained (h : c.outQueue = []) (buff : Bytes) (triggerSend : Bool)
    (callback : Callback) : (c.queueWrite buff triggerSend callback).outQueue = [] ∨
      (c.queueWrite buff triggerSend callback).writeQueue = [] := by
  have hpushed : (c.pushWrite ⟨buff, callback⟩).outQueue = [] := h
  unfold Connection.queueWrite
  dsimp only
  split
  · exact .inr (writeQueue_doQueueWrite hpushed)
  · exact .inl hpushed

theorem enqueueSyncBlock_drained (h : c.outQueue = []) (fetch : UInt32 → Option SignedBlock) :
    (c.enqueueSyncBlock pack fetch).outQueue = [] ∨
      (c.enqueueSyncBlock pack fetch).writeQueue = [] := by
  obtain ⟨requested, heq | ⟨buff, triggerSend, heq⟩⟩ := enqueueSyncBlock_cases pack fetch c
  · rw [heq]
    exact .inl h
  · rw [heq]
    exact queueWrite_drained (c := { c with peerRequested := requested }) h _ _ _

/-- The handler of a write that has succeeded leaves nothing waiting. -/
theorem writeQueue_writeDone (c : Connection) (fetch : UInt32 → Option SignedBlock) (k : ℕ) :
    (c.writeDone pack fetch k false).writeQueue = [] := by
  rw [writeDone_eq, if_neg Bool.false_ne_true]
  generalize c.outQueue.foldl call (reported c k false) = called
  have hdrained : ({ called with outQueue := [] }.enqueueSyncBlock pack fetch).outQueue = [] ∨
      ({ called with outQueue := [] }.enqueueSyncBlock pack fetch).writeQueue = [] :=
    enqueueSyncBlock_drained rfl fetch
  obtain hout | hqueued := hdrained
  · exact writeQueue_doQueueWrite hout
  · rwa [Connection.doQueueWrite, if_pos (.inl hqueued)]

theorem InProgress.drains {c' : Connection} {e : WriteEvent} (h : InProgress c')
    (hstep : writeStep pack c e = .ok c') : Drains c e c' := by
  rintro fetch k rfl hnone
  rw [writeStep] at hstep
  split at hstep
  · cases hstep
    rw [h, inFlight_eq_nil] at hnone
    exact ⟨hnone, writeQueue_writeDone c fetch k⟩
  · cases hstep

/-- Nothing has been queued yet. -/
structure Idle (c : Connection) : Prop where
  writeQueue : c.writeQueue = []
  outQueue : c.outQueue = []
  outstanding : c.socket.outstanding = []
  log : c.log = {}

theorem Idle.inProgress (hc : Idle c) : InProgress c := by
  rw [InProgress, hc.outQueue, hc.outstanding, inFlight_nil]

theorem Idle.inOrder (hc : Idle c) (hopen : c.socket.isOpen = true) : InOrder c where
  isOpen := hopen
  keeps m hm := by
    rw [hc.outQueue, hc.writeQueue] at hm
    cases hm
  inProgress := hc.inProgress
  queued := by
    rw [hc.log, hc.outQueue, hc.writeQueue]
    rfl
  handed := by
    rw [hc.log, hc.outQueue]
    rfl
  written := by
    rw [hc.log]
    rfl

/-- In every run of an open connection that is neither flushed nor closed, at most one
write is outstanding, the socket is handed the buffers in the order in which they were
queued, each once, every callback has run once and after its buffer was written, and
no write is done without the next one taking all that waits. -/
theorem writes_in_order (hc : Idle c) (hopen : c.socket.isOpen = true) {es : List WriteEvent}
    (hes : ∀ e ∈ es, e.KeepsOpen) :
    (∀ t ∈ Rollback.trace (writeStep pack) c es,
      InOrder t ∧ t.socket.outstanding.length ≤ 1) ∧
      Rollback.Along (writeStep pack) Drains c es := by
  have hstep : ∀ c e c', InOrder c → e.KeepsOpen → writeStep pack c e = .ok c' →
      InOrder c' ∧ Drains c e c' := fun _ _ _ h he hstep =>
    ⟨h.step he hstep, (h.step he hstep).inProgress.drains hstep⟩
  obtain ⟨htrace, hdrains⟩ := Rollback.trace_induction hstep hes (hc.inOrder hopen)
  exact ⟨fun t ht => ⟨htrace t ht, (htrace t ht).inProgress.outstanding_le⟩, hdrains⟩

/-- Two writes, queued one after the other, and their completions. -/
def sessionWrites : List WriteEvent :=
  [.queueWrite [1] true (.sent .noReason), .queueWrite [2] false (.decrInFlight 7),
    .writeDone (fun _ => none) 0 false, .writeDone (fun _ => none) 0 false]

/-- Of two writes queued one after the other, the second goes out when the first is done. -/
theorem writes_in_order_two :
    (∀ t ∈ Rollback.trace (writeStep fun _ => []) ofSocket sessionWrites,
      InOrder t ∧ t.socket.outstanding.length ≤ 1) ∧
      (Rollback.run (writeStep fun _ => []) ofSocket sessionWrites).log.handed = [[1], [2]] := by
  refine ⟨(writes_in_order ⟨rfl, rfl, rfl, rfl⟩ rfl ?_).1, rfl⟩
  intro e he
  simp only [sessionWrites, List.mem_cons, List.not_mem_nil, or_false] at he
  obtain rfl | rfl | rfl | rfl := he
  · exact not_not.mpr rfl
  · exact not_false
  · rfl
  · rfl

/-! ### A connection that is closed and dialed again -/

/-- The write that is reported back has failed. -/
def WriteEvent.Fails : WriteEvent → Prop
  | .writeDone _ _ failed => failed = true
  | _ => False

/-- What waits goes out: `outQueue` is only of a write that is really in progress, and
with no write outstanding a buffer that is to be sent is handed to the socket with all
that waits, as is what waits when a write has been done. -/
structure CanWrite (pack : NetMessage → Bytes) (c : Connection) : Prop where
  inProgress : c.outQueue ≠ [] → c.socket.outstanding = [c.outQueue.map QueuedWrite.buff]
  hands : c.socket.outstanding = [] → ∀ buff callback,
    (c.queueWrite buff true callback).log.handed =
      c.log.handed ++ c.writeQueue.map QueuedWrite.buff ++ [buff]
  drains : ∀ fetch k, (c.writeDone pack fetch k false).writeQueue = []

theorem InProgress.canWrite (h : InProgress c) (hopen : c.socket.isOpen = true) :
    CanWrite pack c where
  inProgress hout := h.trans (inFlight_of_ne hout)
  hands hnone buff callback := by
    rw [h, inFlight_eq_nil] at hnone
    have hpushed : (c.pushWrite ⟨buff, callback⟩).outQueue = [] := hnone
    have hopen' : (c.pushWrite ⟨buff, callback⟩).socket.isOpen = true := hopen
    rw [Connection.queueWrite, if_pos ⟨hpushed, rfl⟩, handed_doQueueWrite hopen' hpushed,
      Connection.pushWrite, List.map_append, List.append_assoc]
    rfl
  drains := writeQueue_writeDone c

theorem InProgress.step {c' : Connection} {e : WriteEvent} (h : InProgress c) (he : ¬ e.Fails)
    (hstep : writeStep pack c e = .ok c') : InProgress c' := by
  cases e with
  | queueWrite buff triggerSend callback =>
      cases hstep
      exact h.queueWrite buff triggerSend callback
  | enqueueSyncBlock fetch =>
      cases hstep
      exact h.enqueueSyncBlock fetch
  | syncRequest fetch msg =>
      cases hstep
      unfold handleSyncRequest
      split
      · exact h.congr rfl rfl
      · exact (h.request _).enqueueSyncBlock fetch
  | writeDone fetch k failed =>
      have hdone : failed = false := Bool.eq_false_iff.mpr he
      subst hdone
      rw [writeStep] at hstep
      split at hstep
      · rename_i hk
        cases hstep
        exact h.writeDone fetch hk
      · cases hstep
  | flushQueues =>
      cases hstep
      exact h.congr rfl rfl
  | close =>
      cases hstep
      exact h.congr rfl rfl
  | reconnect =>
      rw [writeStep] at hstep
      split at hstep
      · cases hstep
      · cases hstep
        exact h.congr rfl rfl

/-- `outQueue` is taken for a write in progress, but there is none. -/
structure Silent (c : Connection) : Prop where
  outQueue : c.outQueue ≠ []
  outstanding : c.socket.outstanding = []

theorem Silent.not_canWrite (h : Silent c) : ¬ CanWrite pack c := fun hc => by
  have hone := hc.inProgress h.outQueue
  rw [h.outstanding] at hone
  cases hone

theorem InProgress.silent {c' : Connection} {e : WriteEvent} (h : InProgress c) (he : e.Fails)
    (hstep : writeStep pack c e = .ok c') : Silent c' ∧ c'.socket.isOpen = false := by
  cases e with
  | writeDone fetch k failed =>
      cases he
      rw [writeStep] at hstep
      split at hstep
      · rename_i hk
        cases hstep
        rw [writeDone_eq, if_pos rfl]
        refine ⟨⟨?_, h.called hk true⟩, rfl⟩
        show (c.outQueue.foldl call (Net.reported c k true)).outQueue ≠ []
        rw [(calls_frame _ _).1]
        exact (h.reported hk).1
      · cases hstep
  | _ => exact he.elim

theorem Silent.request (h : Silent c) (requested : Option SyncState) :
    Silent { c with peerRequested := requested } := ⟨h.outQueue, h.outstanding⟩

theorem Silent.queueWrite (h : Silent c) (buff : Bytes) (triggerSend : Bool)
    (callback : Callback) :
    c.queueWrite buff triggerSend callback = c.pushWrite ⟨buff, callback⟩ :=
  if_neg fun hand => h.outQueue hand.1

theorem Silent.enqueueSyncBlock (h : Silent c) (pack : NetMessage → Bytes)
    (fetch : UInt32 → Option SignedBlock) :
    Silent (c.enqueueSyncBlock pack fetch) ∧
      (c.enqueueSyncBlock pack fetch).socket = c.socket := by
  obtain ⟨requested, heq | ⟨buff, triggerSend, heq⟩⟩ := enqueueSyncBlock_cases pack fetch c
  · rw [heq]
    exact ⟨h.request requested, rfl⟩
  · rw [heq, (h.request requested).queueWrite]
    exact ⟨⟨h.outQueue, h.outstanding⟩, rfl⟩

/-- Nothing ends the silence, and only a reconnect opens the socket. -/
theorem Silent.step {c' : Connection} {e : WriteEvent} (h : Silent c)
    (hstep : writeStep pack c e = .ok c') :
    Silent c' ∧ ¬ e.Fails ∧
      (e ≠ .reconnect → c.socket.isOpen = false → c'.socket.isOpen = false) := by
  cases e with
  | queueWrite buff triggerSend callback =>
      cases hstep
      rw [h.queueWrite]
      exact ⟨⟨h.outQueue, h.outstanding⟩, not_false, fun _ hclosed => hclosed⟩
  | enqueueSyncBlock fetch =>
      cases hstep
      obtain ⟨hsilent, hsocket⟩ := h.enqueueSyncBlock pack fetch
      exact ⟨hsilent, not_false, fun _ hclosed => by rw [hsocket]; exact hclosed⟩
  | syncRequest fetch msg =>
      cases hstep
      unfold handleSyncRequest
      split
      · exact ⟨⟨h.outQueue, h.outstanding⟩, not_false, fun _ hclosed => hclosed⟩
      · obtain ⟨hsilent, hsocket⟩ := (h.request _).enqueueSyncBlock pack fetch
        exact ⟨hsilent, not_false, fun _ hclosed => by rw [hsocket]; exact hclosed⟩
  | writeDone fetch k failed =>
      rw [writeStep, h.outstanding, List.length_nil, if_neg (Nat.not_lt_zero k)] at hstep
      cases hstep
  | flushQueues =>
      cases hstep
      exact ⟨⟨h.outQueue, h.outstanding⟩, not_false, fun _ hclosed => hclosed⟩
  | close =>
      cases hstep
      exact ⟨⟨h.outQueue, h.outstanding⟩, not_false, fun _ _ => rfl⟩
  | reconnect =>
      rw [writeStep] at hstep
      split at hstep
      · cases hstep
      · cases hstep
        exact ⟨⟨h.outQueue, h.outstanding⟩, not_false, fun hne => absurd rfl hne⟩

/-- Every open state of a run can write. -/
def WritesWhenOpen (pack : NetMessage → Bytes) (c : Connection) (es : List WriteEvent) : Prop :=
  ∀ t ∈ Rollback.trace (writeStep pack) c es, t.socket.isOpen = true → CanWrite pack t

/-- No write that failed is followed by a reconnect. -/
def NoReconnectAfterFailure (es : List WriteEvent) : Prop :=
  es.Pairwise fun e e' => e.Fails → e' ≠ .reconnect

theorem writesWhenOpen_cons {e : WriteEvent} {es : List WriteEvent} :
    WritesWhenOpen pack c (e :: es) ↔ (c.socket.isOpen = true → CanWrite pack c) ∧
      WritesWhenOpen pack (Rollback.push (writeStep pack) c e) es :=
  List.forall_mem_cons

theorem WritesWhenOpen.self {es : List WriteEvent} (h : WritesWhenOpen pack c es)
    (hopen : c.socket.isOpen = true) : CanWrite pack c :=
  h c (Rollback.mem_trace_self c es) hopen

theorem noReconnectAfterFailure_cons {e : WriteEvent} {es : List WriteEvent} :
    NoReconnectAfterFailure (e :: es) ↔
      (∀ e' ∈ es, e.Fails → e' ≠ .reconnect) ∧ NoReconnectAfterFailure es :=
  List.pairwise_cons

theorem reconnect_isOpen {c' : Connection} (hstep : writeStep pack c .reconnect = .ok c') :
    c'.socket.isOpen = true := by
  rw [writeStep] at hstep
  split at hstep
  · cases hstep
  · cases hstep
    rfl

/-- A silent connection that is closed is a problem only when it is dialed again. -/
theorem Silent.writesWhenOpen_iff (h : Silent c) (hclosed : c.socket.isOpen = false)
    (es : List WriteEvent) :
    WritesWhenOpen pack c es ↔
      ∀ e ∈ Rollback.accepted (writeStep pack) c es, e ≠ .reconnect := by
  induction es generalizing c with
  | nil =>
      refine ⟨fun _ e he => (by cases he), fun _ t ht hopen => ?_⟩
      rw [List.mem_singleton.mp ht, hclosed] at hopen
      cases hopen
  | cons e es ih =>
      have hself : c.socket.isOpen = true → CanWrite pack c := fun hopen => by
        rw [hclosed] at hopen
        cases hopen
      rw [writesWhenOpen_cons, and_iff_right hself, Rollback.accepted]
      cases hstep : writeStep pack c e with
      | error _ =>
          rw [Rollback.push_error hstep]
          exact ih h hclosed
      | ok c' =>
          obtain ⟨hsilent, -, hstays⟩ := h.step hstep
          rw [Rollback.push_ok hstep]
          dsimp only
          rw [List.singleton_append, List.forall_mem_cons]
          by_cases he : e = .reconnect
          · subst he
            have hopen : c'.socket.isOpen = true := reconnect_isOpen hstep
            exact ⟨fun hwrites => absurd (hwrites.self hopen) hsilent.not_canWrite,
              fun hnone => absurd rfl hnone.1⟩
          · rw [ih hsilent (hstays he hclosed)]
            exact ⟨fun hrest => ⟨he, hrest⟩, fun hall => hall.2⟩

theorem Silent.noFailure (h : Silent c) (es : List WriteEvent) :
    ∀ e ∈ Rollback.accepted (writeStep pack) c es, ¬ e.Fails := by
  induction es generalizing c with
  | nil => exact fun e he => (by cases he)
  | cons e es ih =>
      rw [Rollback.accepted]
      cases hstep : writeStep pack c e with
      | error _ =>
          rw [Rollback.push_error hstep]
          exact ih h
      | ok c' =>
          obtain ⟨hsilent, hfails, -⟩ := h.step hstep
          rw [Rollback.push_ok hstep]
          dsimp only
          rw [List.singleton_append, List.forall_mem_cons]
          exact ⟨hfails, ih hsilent⟩

theorem noReconnectAfterFailure_of_noFailure {es : List WriteEvent}
    (h : ∀ e ∈ es, ¬ e.Fails) : NoReconnectAfterFailure es := by
  induction es with
  | nil => exact .nil
  | cons e es ih =>
      rw [List.forall_mem_cons] at h
      exact noReconnectAfterFailure_cons.mpr ⟨fun _ _ he => absurd he h.1, ih h.2⟩

theorem InProgress.writesWhenOpen_iff (h : InProgress c) (es : List WriteEvent) :
    WritesWhenOpen pack c es ↔
      NoReconnectAfterFailure (Rollback.accepted (writeStep pack) c es) := by
  induction es generalizing c with
  | nil =>
      refine ⟨fun _ => .nil, fun _ t ht hopen => ?_⟩
      obtain rfl := List.mem_singleton.mp ht
      exact h.canWrite hopen
  | cons e es ih =>
      rw [writesWhenOpen_cons, and_iff_right h.canWrite, Rollback.accepted]
      cases hstep : writeStep pack c e with
      | error _ =>
          rw [Rollback.push_error hstep]
          exact ih h
      | ok c' =>
          rw [Rollback.push_ok hstep]
          dsimp only
          rw [List.singleton_append, noReconnectAfterFailure_cons]
          by_cases he : e.Fails
          · -- From the failure on the connection is silent.
            obtain ⟨hsilent, hclosed⟩ := h.silent he hstep
            rw [hsilent.writesWhenOpen_iff hclosed]
            have hrest : NoReconnectAfterFailure (Rollback.accepted (writeStep pack) c' es) :=
              noReconnectAfterFailure_of_noFailure (hsilent.noFailure es)
            exact ⟨fun hnone => ⟨fun e' he' _ => hnone e' he', hrest⟩,
              fun hall e' he' => hall.1 e' he' he⟩
          · rw [ih (h.step he hstep)]
            exact ⟨fun hrest => ⟨fun _ _ hfails => absurd hfails he, hrest⟩,
              fun hall => hall.2⟩

/-- A connection can write whenever it is open if and only if it is never dialed again
once a write of it has failed. -/
theorem writes_when_open_iff (hc : Idle c) (es : List WriteEvent) :
    WritesWhenOpen pack c es ↔
      NoReconnectAfterFailure (Rollback.accepted (writeStep pack) c es) :=
  hc.inProgress.writesWhenOpen_iff es

/-- A connection is closed while its write is pending, the write is reported back as a
success and the connection is dialed again. -/
def reopenedWrites : List WriteEvent :=
  [.queueWrite [1] true (.decrInFlight 7), .close, .writeDone (fun _ => none) 0 false,
    .reconnect, .queueWrite [2] true (.decrInFlight 7)]

theorem writes_when_open_reopened :
    WritesWhenOpen (fun _ => []) ofSocket reopenedWrites ∧
      (Rollback.run (writeStep fun _ => []) ofSocket reopenedWrites).log.handed =
        [[1], [2]] := by
  refine ⟨(writes_when_open_iff ⟨rfl, rfl, rfl, rfl⟩ reopenedWrites).mpr ?_, rfl⟩
  refine noReconnectAfterFailure_of_noFailure ?_
  show ∀ e ∈ reopenedWrites, ¬ e.Fails
  simp only [reopenedWrites, List.forall_mem_cons, WriteEvent.Fails, not_false_eq_true,
    Bool.false_eq_true, List.not_mem_nil, IsEmpty.forall_iff, implies_true, and_self]

/-- The same with a write that fails. -/
def failedWrites : List WriteEvent :=
  [.queueWrite [1] true (.decrInFlight 7), .writeDone (fun _ => none) 0 true, .reconnect]

/-- The connection is open again and no write is outstanding, but `outQueue` is not empty
and what is queued to be sent is not handed to the socket. -/
theorem reopened_connection_silent :
    let c := Rollback.run (writeStep fun _ => []) ofSocket failedWrites
    c.socket.isOpen = true ∧ c.socket.outstanding = [] ∧
      c.outQueue = [⟨[1], .decrInFlight 7⟩] ∧
      (c.queueWrite [2] true (.decrInFlight 7)).log.handed = [[1]] ∧
      ¬ WritesWhenOpen (fun _ => []) ofSocket failedWrites := by
  refine ⟨rfl, rfl, rfl, rfl, fun hwrites => ?_⟩
  have hlast := hwrites (Rollback.run (writeStep fun _ => []) ofSocket failedWrites)
    (by simp [failedWrites, Rollback.trace]) rfl
  have hone := hlast.inProgress (by decide)
  cases hone

end Xidata.Net
