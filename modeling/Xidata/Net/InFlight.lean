import Xidata.Net.Relay
import Xidata.Net.Writes

/-!
What is in flight of the local transactions.  As long as no write of a transaction is
dropped, the node counts for each transaction the writes whose callbacks are still to
come, over all connections.
-/

namespace Xidata.Net

attribute [local instance] lawfulBEq_sha256

namespace Connection

variable {c : Connection} {id : TransactionId} {pack : NetMessage → Bytes}

/-- The callback counts down what is in flight of the transaction. -/
def decrements (id : TransactionId) (m : QueuedWrite) : Bool := m.callback = .decrInFlight id

/-- The writes of the transaction whose callbacks are to come: those that wait, and those of
the write in progress. -/
def countInFlight (c : Connection) (id : TransactionId) : ℕ :=
  c.writeQueue.countP (decrements id) +
    if c.socket.outstanding = [] then 0 else c.outQueue.countP (decrements id)

/-- A write that is queued now is not dropped. -/
def TakesWrites (c : Connection) : Prop := c.outQueue ≠ [] ∨ c.socket.isOpen = true

/-- Nothing of the transaction waits. -/
def Spares (c : Connection) (id : TransactionId) : Prop :=
  c.writeQueue.countP (decrements id) = 0

instance : Decidable c.TakesWrites := inferInstanceAs (Decidable (_ ∨ _))

instance : Decidable (c.Spares id) := inferInstanceAs (Decidable (_ = _))

/-- `outQueue` holds the buffers of the one write that is outstanding, or none is. -/
def Writing (c : Connection) : Prop := InProgress c ∨ Silent c

theorem Writing.step {c' : Connection} {e : WriteEvent} (h : Writing c)
    (hstep : writeStep pack c e = .ok c') : Writing c' := by
  obtain h | h := h
  · by_cases he : e.Fails
    · exact .inr (h.silent he hstep).1
    · exact .inl (h.step he hstep)
  · exact .inr (h.step hstep).1

theorem Writing.congr {c' : Connection} (h : Writing c) (hout : c'.outQueue = c.outQueue)
    (hsocket : c'.socket.outstanding = c.socket.outstanding) : Writing c' := by
  obtain h | h := h
  · exact .inl (h.congr hout hsocket)
  · exact .inr ⟨hout ▸ h.outQueue, hsocket.trans h.outstanding⟩

theorem Writing.outstanding (h : Writing c) (hout : c.outQueue = []) :
    c.socket.outstanding = [] := by
  obtain h | h := h
  · rw [h, hout, inFlight_nil]
  · exact h.outstanding

theorem countInFlight_congr {c' : Connection} (hqueue : c'.writeQueue = c.writeQueue)
    (hout : c'.outQueue = c.outQueue) (hsocket : c'.socket.outstanding = c.socket.outstanding) :
    c'.countInFlight id = c.countInFlight id := by
  rw [countInFlight, countInFlight, hqueue, hout, hsocket]

theorem countInFlight_of_idle (h : c.socket.outstanding = []) :
    c.countInFlight id = c.writeQueue.countP (decrements id) := by
  rw [countInFlight, if_pos h, add_zero]

theorem countInFlight_pushWrite (c : Connection) (m : QueuedWrite) (id : TransactionId) :
    (c.pushWrite m).countInFlight id =
      c.countInFlight id + if decrements id m then 1 else 0 := by
  rw [countInFlight, countInFlight, pushWrite, List.countP_append, List.countP_singleton,
    add_right_comm]

/-- Nothing of a transaction is lost with the queue in which nothing of it waits. -/
theorem countInFlight_dropped {c' : Connection} (h : c.Spares id) (hqueue : c'.writeQueue = [])
    (hout : c'.outQueue = c.outQueue) (hsocket : c'.socket.outstanding = c.socket.outstanding) :
    c'.countInFlight id = c.countInFlight id := by
  rw [countInFlight, countInFlight, h, hqueue, hout, hsocket]
  rfl

theorem countInFlight_flushQueues (h : c.Spares id) :
    c.flushQueues.countInFlight id = c.countInFlight id := countInFlight_dropped h rfl rfl rfl

theorem countInFlight_close (h : c.Spares id) : c.close.countInFlight id = c.countInFlight id :=
  countInFlight_dropped h rfl rfl rfl

/-! ### Queueing -/

theorem countInFlight_doQueueWrite (h : Writing c) (hsafe : c.TakesWrites ∨ c.Spares id) :
    c.doQueueWrite.countInFlight id = c.countInFlight id := by
  by_cases hout : c.outQueue = []
  · obtain ⟨-, heq⟩ | ⟨hqueued, -, heq⟩ | ⟨-, hclosed, heq⟩ := doQueueWrite_cases hout
    · rw [heq]
    · rw [heq, countInFlight_of_idle (h.outstanding hout), countInFlight, handOver]
      dsimp only
      rw [hout, List.nil_append, List.countP_nil, zero_add, if_neg]
      exact List.append_ne_nil_of_right_ne_nil _ (List.cons_ne_nil _ _)
    · rw [heq]
      refine countInFlight_close (hsafe.resolve_left ?_)
      rintro (hbusy | hopen)
      · exact hbusy hout
      · rw [hclosed] at hopen
        cases hopen
  · rw [doQueueWrite_of_busy hout]

theorem Writing.queueWrite (h : Writing c) (buff : Bytes) (triggerSend : Bool)
    (callback : Callback) : Writing (c.queueWrite buff triggerSend callback) :=
  @Writing.step c (fun _ => []) _ (.queueWrite buff triggerSend callback) h rfl

theorem isOpen_doQueueWrite (h : c.socket.isOpen = true) : c.doQueueWrite.socket.isOpen = true := by
  unfold doQueueWrite
  rw [if_pos h]
  split
  · exact h
  · exact h

/-- A connection that is open takes writes as long as nothing but writes happens to it. -/
theorem isOpen_queueWrite (h : c.socket.isOpen = true) (buff : Bytes) (triggerSend : Bool)
    (callback : Callback) : (c.queueWrite buff triggerSend callback).socket.isOpen = true := by
  unfold Connection.queueWrite
  dsimp only
  split
  · exact isOpen_doQueueWrite h
  · exact h

theorem TakesWrites.queueWrite (h : c.TakesWrites) (buff : Bytes) (triggerSend : Bool)
    (callback : Callback) : (c.queueWrite buff triggerSend callback).TakesWrites := by
  obtain hbusy | hopen := h
  · rw [Connection.queueWrite, if_neg fun hidle => hbusy hidle.1]
    exact .inl hbusy
  · exact .inr (isOpen_queueWrite hopen buff triggerSend callback)

theorem Spares.doQueueWrite (h : c.Spares id) : c.doQueueWrite.Spares id := by
  by_cases hout : c.outQueue = []
  · rw [Spares, writeQueue_doQueueWrite hout]
    rfl
  · rw [doQueueWrite_of_busy hout]
    exact h

theorem Spares.queueWrite (h : c.Spares id) (buff : Bytes) (triggerSend : Bool)
    {callback : Callback} (hcallback : callback ≠ .decrInFlight id) :
    (c.queueWrite buff triggerSend callback).Spares id := by
  have hpushed : (c.pushWrite ⟨buff, callback⟩).Spares id := by
    rw [Spares, pushWrite, List.countP_append, h, List.countP_singleton, decrements,
      decide_eq_false hcallback]
    rfl
  unfold Connection.queueWrite
  dsimp only
  split
  · exact hpushed.doQueueWrite
  · exact hpushed

/-- A write that is queued for a connection that takes it is in flight. -/
theorem countInFlight_queueWrite (h : Writing c) (hopen : c.TakesWrites) (buff : Bytes)
    (triggerSend : Bool) (callback : Callback) :
    (c.queueWrite buff triggerSend callback).countInFlight id =
      c.countInFlight id + if callback = .decrInFlight id then 1 else 0 := by
  have hpushed := countInFlight_pushWrite c ⟨buff, callback⟩ id
  simp only [decrements, decide_eq_true_eq] at hpushed
  rw [← hpushed]
  unfold Connection.queueWrite
  dsimp only
  split
  · exact countInFlight_doQueueWrite (h.congr rfl rfl) (.inl hopen)
  · rfl

/-- Another write changes nothing, if it is not sent or does not drop what waits. -/
theorem countInFlight_queueWrite_sent (h : Writing c) (buff : Bytes) {triggerSend : Bool}
    (hsafe : triggerSend = true → c.TakesWrites ∨ c.Spares id) (reason : GoAwayReason) :
    (c.queueWrite buff triggerSend (.sent reason)).countInFlight id = c.countInFlight id := by
  have hpushed : (c.pushWrite ⟨buff, .sent reason⟩).countInFlight id = c.countInFlight id :=
    countInFlight_pushWrite c ⟨buff, .sent reason⟩ id
  rw [← hpushed]
  unfold Connection.queueWrite
  dsimp only
  split
  · rename_i hsend
    refine countInFlight_doQueueWrite (h.congr rfl rfl) ((hsafe hsend.2).imp_right fun hspares => ?_)
    rw [Spares, pushWrite, List.countP_append, hspares]
    rfl
  · rfl

theorem countInFlight_enqueueSyncBlock (h : Writing c) (fetch : UInt32 → Option SignedBlock)
    (hsafe : c.TakesWrites ∨ c.Spares id) :
    (c.enqueueSyncBlock pack fetch).countInFlight id = c.countInFlight id := by
  obtain ⟨requested, heq | ⟨buff, triggerSend, heq⟩⟩ := enqueueSyncBlock_cases pack fetch c
  · rw [heq]
    exact countInFlight_congr rfl rfl rfl
  · rw [heq]
    exact countInFlight_queueWrite_sent (c := { c with peerRequested := requested })
      (h.congr rfl rfl) buff (fun _ => hsafe) .noReason

theorem isOpen_enqueueSyncBlock (h : c.socket.isOpen = true)
    (fetch : UInt32 → Option SignedBlock) :
    (c.enqueueSyncBlock pack fetch).socket.isOpen = true := by
  obtain ⟨requested, heq | ⟨buff, triggerSend, heq⟩⟩ := enqueueSyncBlock_cases pack fetch c
  · rw [heq]
    exact h
  · rw [heq]
    exact isOpen_queueWrite (c := { c with peerRequested := requested }) h buff triggerSend _

theorem Spares.enqueueSyncBlock (h : c.Spares id) (fetch : UInt32 → Option SignedBlock) :
    (c.enqueueSyncBlock pack fetch).Spares id := by
  obtain ⟨requested, heq | ⟨buff, triggerSend, heq⟩⟩ := enqueueSyncBlock_cases pack fetch c
  · rw [heq]
    exact h
  · rw [heq]
    have hrequested : { c with peerRequested := requested }.Spares id := h
    exact hrequested.queueWrite buff triggerSend nofun

/-- A request for blocks drops what waits if it takes back the last one, or if its first
block finds the socket closed. -/
theorem countInFlight_handleSyncRequest (h : Writing c) (fetch : UInt32 → Option SignedBlock)
    (msg : SyncRequestMessage) (hempty : msg.endBlock = 0 → c.Spares id)
    (hblock : msg.endBlock ≠ 0 → fetch msg.startBlock ≠ none → c.TakesWrites ∨ c.Spares id) :
    (c.handleSyncRequest pack fetch msg).countInFlight id = c.countInFlight id := by
  unfold Connection.handleSyncRequest
  split
  · rename_i hend
    have hspares : { c with peerRequested := none }.Spares id := hempty hend
    rw [countInFlight_flushQueues hspares]
    exact countInFlight_congr rfl rfl rfl
  · rename_i hend
    cases hfetch : fetch msg.startBlock with
    | none =>
        unfold Connection.enqueueSyncBlock
        simp only [UInt32.sub_add_cancel, hfetch]
        exact countInFlight_congr rfl rfl rfl
    | some sb =>
        have hsafe := hblock hend (by rw [hfetch]; exact Option.some_ne_none sb)
        exact countInFlight_enqueueSyncBlock (c := { c with
          peerRequested := some ⟨msg.startBlock, msg.endBlock, msg.startBlock - 1⟩ })
          (h.congr rfl rfl) fetch hsafe

/-! ### Completed writes -/

theorem Spares.calls (h : c.Spares id) (q : List QueuedWrite) : (q.foldl call c).Spares id := by
  induction q generalizing c with
  | nil => exact h
  | cons m q ih =>
      refine ih ?_
      unfold Connection.call
      cases m.callback with
      | sent closeAfterSend =>
          dsimp only
          split
          · rfl
          · exact h
      | decrInFlight id => exact h

/-- What a write that has succeeded is followed by. -/
theorem countInFlight_resume (h : Writing c) (fetch : UInt32 → Option SignedBlock)
    (hsafe : c.socket.isOpen = true ∨ c.Spares id) :
    (c.enqueueSyncBlock pack fetch).doQueueWrite.countInFlight id = c.countInFlight id := by
  have hsync : (c.enqueueSyncBlock pack fetch).countInFlight id = c.countInFlight id :=
    countInFlight_enqueueSyncBlock h fetch (hsafe.imp_left .inr)
  rw [← hsync]
  refine countInFlight_doQueueWrite (h.step (e := .enqueueSyncBlock fetch) rfl) ?_
  obtain hopen | hspares := hsafe
  · exact .inl (.inr (isOpen_enqueueSyncBlock hopen fetch))
  · exact .inr (hspares.enqueueSyncBlock fetch)

/-- The write is neither failed nor followed by the connection being closed. -/
def Succeeds (c : Connection) (failed : Bool) : Prop :=
  failed = false ∧ c.socket.isOpen = true ∧ ∀ m ∈ c.outQueue, ¬ m.callback.closes

instance : (callback : Callback) → Decidable callback.closes
  | .sent closeAfterSend => inferInstanceAs (Decidable (closeAfterSend ≠ .noReason))
  | .decrInFlight _ => inferInstanceAs (Decidable False)

instance {failed : Bool} : Decidable (c.Succeeds failed) :=
  inferInstanceAs (Decidable (_ ∧ _ ∧ ∀ m ∈ c.outQueue, ¬ m.callback.closes))

variable (pack id) in
/-- The callbacks of a write are called, and whatever waits stays in flight if the
connection stays open. -/
theorem countInFlight_writeDone (h : InProgress c) (fetch : UInt32 → Option SignedBlock) {k : ℕ}
    (hk : k < c.socket.outstanding.length) {failed : Bool}
    (hsafe : c.Succeeds failed ∨ c.Spares id) :
    (c.writeDone pack fetch k failed).countInFlight id + c.outQueue.countP (decrements id) =
      c.countInFlight id := by
  have hbusy : c.socket.outstanding ≠ [] := by
    intro hnil
    rw [hnil] at hk
    exact absurd hk (Nat.not_lt_zero k)
  have hcount : c.countInFlight id =
      c.writeQueue.countP (decrements id) + c.outQueue.countP (decrements id) := by
    rw [countInFlight, if_neg hbusy]
  have hcalled := h.called hk failed
  obtain ⟨hqueue, hrest⟩ : (c.outQueue.foldl call (reported c k failed)).writeQueue.countP
        (decrements id) = c.writeQueue.countP (decrements id) ∧
      (failed = false ∧ (c.outQueue.foldl call (reported c k failed)).socket.isOpen = true ∨
        (c.outQueue.foldl call (reported c k failed)).Spares id) := by
    obtain ⟨hfine, hopen, hcloses⟩ | hspares := hsafe
    · rw [calls_eq hcloses]
      exact ⟨rfl, .inl ⟨hfine, hopen⟩⟩
    · have hrest : (c.outQueue.foldl call (reported c k failed)).Spares id :=
        Spares.calls (c := reported c k failed) hspares c.outQueue
      exact ⟨hrest.trans hspares.symm, .inr hrest⟩
  rw [hcount, writeDone_eq, ← hqueue]
  generalize c.outQueue.foldl call (reported c k failed) = called at hcalled hrest
  congr 1
  cases failed with
  | true =>
      have hspares : called.Spares id := hrest.resolve_left fun hfine => Bool.noConfusion hfine.1
      rw [if_pos rfl, countInFlight_close hspares, countInFlight_of_idle hcalled]
  | false =>
      rw [if_neg Bool.false_ne_true]
      have hwriting : Writing { called with outQueue := [] } := .inl hcalled
      rw [countInFlight_resume hwriting fetch (hrest.imp_left And.right)]
      exact countInFlight_of_idle (c := { called with outQueue := [] }) hcalled

end Connection

namespace NodeTransactionState

variable (nts : NodeTransactionState)

/-- The number of the block that the transaction is in, zero if it is in none yet. -/
def recorded : UInt32 := if nts.requests = 0 then nts.blockNum else nts.trueBlock

@[simp] theorem id_updateInFlight (incr : ℤ) : (nts.updateInFlight incr).id = nts.id := by
  simp only [updateInFlight]
  split <;> split <;> rfl

@[simp] theorem id_incrInFlight : nts.incrInFlight.id = nts.id := nts.id_updateInFlight 1

@[simp] theorem id_decrInFlight : nts.decrInFlight.id = nts.id := nts.id_updateInFlight (-1)

@[simp] theorem serializedTxn_updateInFlight (incr : ℤ) :
    (nts.updateInFlight incr).serializedTxn = nts.serializedTxn := by
  simp only [updateInFlight]
  split <;> split <;> rfl

@[simp] theorem requests_updateInFlight (incr : ℤ) :
    (nts.updateInFlight incr).requests = nts.requests + UInt16.ofInt incr := by
  simp only [updateInFlight]
  split <;> split <;> rfl

theorem requests_incrInFlight (h : nts.requests.toNat + 1 < 2 ^ 16) :
    nts.incrInFlight.requests.toNat = nts.requests.toNat + 1 := by
  rw [incrInFlight, requests_updateInFlight, UInt16.toNat_add]
  exact Nat.mod_eq_of_lt h

theorem requests_decrInFlight (h : 0 < nts.requests.toNat) :
    nts.decrInFlight.requests.toNat + 1 = nts.requests.toNat := by
  have hlt := nts.requests.toNat_lt
  have hone : (UInt16.ofInt (-1)).toNat = 65535 := by decide
  rw [decrInFlight, requests_updateInFlight, UInt16.toNat_add, hone]
  omega

/-- What is in flight does not matter for the block that is recorded. -/
theorem recorded_updateInFlight (incr : ℤ) (h : UInt16.ofInt incr ≠ 0) :
    (nts.updateInFlight incr).recorded = nts.recorded := by
  rw [recorded, requests_updateInFlight, recorded, updateInFlight]
  by_cases hnone : nts.requests = 0
  · simp [hnone, h]
  · by_cases hafter : nts.requests + UInt16.ofInt incr = 0
    · simp [hnone, hafter]
    · simp [hnone, hafter]

@[simp] theorem id_updateBlockNum (num : UInt32) : (nts.updateBlockNum num).id = nts.id := by
  unfold updateBlockNum
  split <;> rfl

@[simp] theorem requests_updateBlockNum (num : UInt32) :
    (nts.updateBlockNum num).requests = nts.requests := by
  unfold updateBlockNum
  split <;> rfl

theorem recorded_updateBlockNum (num : UInt32) : (nts.updateBlockNum num).recorded = num := by
  rw [recorded, requests_updateBlockNum, updateBlockNum]
  split <;> simp [*]

end NodeTransactionState

namespace Relay

open Connection NodeTransactionState

variable {content : Contents} {n : Relay} {c : ConnectionId} {f : Connection → Connection}

/-- The writes of the transaction whose callbacks are to come, over all connections. -/
def countInFlight (n : Relay) (id : TransactionId) : ℕ :=
  ∑ c ∈ n.objects, (n.conn c).countInFlight id

def Balanced (n : Relay) : Prop :=
  ∀ nts ∈ n.localTxns, nts.requests.toNat = n.countInFlight nts.id

/-- The node counts what is in flight. -/
structure Counts (n : Relay) : Prop where
  writing : ∀ c, (n.conn c).Writing
  nodup : (n.localTxns.map NodeTransactionState.id).Nodup
  balanced : n.Balanced

/-! ### One connection of many -/

theorem countInFlight_update (h : c ∈ n.objects) (id : TransactionId) :
    (n.update c f).countInFlight id + (n.conn c).countInFlight id =
      n.countInFlight id + (f (n.conn c)).countInFlight id := by
  have hothers : ∑ d ∈ n.objects.erase c, ((n.update c f).conn d).countInFlight id =
      ∑ d ∈ n.objects.erase c, (n.conn d).countInFlight id :=
    Finset.sum_congr rfl fun d hd => by rw [update_conn_of_ne (Finset.ne_of_mem_erase hd)]
  have hafter := Finset.add_sum_erase n.objects (fun d => ((n.update c f).conn d).countInFlight id) h
  have hbefore := Finset.add_sum_erase n.objects (fun d => (n.conn d).countInFlight id) h
  rw [hothers, update_conn_self] at hafter
  rw [countInFlight, countInFlight, update_objects]
  omega

theorem countInFlight_update_same {id : TransactionId}
    (h : (f (n.conn c)).countInFlight id = (n.conn c).countInFlight id) :
    (n.update c f).countInFlight id = n.countInFlight id := by
  refine Finset.sum_congr rfl fun d _ => ?_
  by_cases hd : d = c
  · rw [hd, update_conn_self, h]
  · rw [update_conn_of_ne hd]

theorem countInFlight_le (h : c ∈ n.objects) (id : TransactionId) :
    (n.conn c).countInFlight id ≤ n.countInFlight id := by
  rw [countInFlight, ← Finset.add_sum_erase n.objects _ h]
  exact Nat.le_add_right _ _

theorem writing_update (h : ∀ d, (n.conn d).Writing) (hf : (f (n.conn c)).Writing)
    (d : ConnectionId) : ((n.update c f).conn d).Writing := by
  by_cases hd : d = c
  · rw [hd, update_conn_self]
    exact hf
  · rw [update_conn_of_ne hd]
    exact h d

/-- A connection that keeps its writes of the local transactions. -/
theorem Counts.update (h : Counts n) (hf : (f (n.conn c)).Writing)
    (hcount : ∀ nts ∈ n.localTxns,
      (f (n.conn c)).countInFlight nts.id = (n.conn c).countInFlight nts.id) :
    Counts (n.update c f) where
  writing := writing_update h.writing hf
  nodup := h.nodup
  balanced nts hnts := by
    rw [countInFlight_update_same (hcount nts hnts)]
    exact h.balanced nts hnts

/-- Nothing of a local transaction waits on the connection. -/
def Spares (n : Relay) (c : ConnectionId) : Prop :=
  ∀ nts ∈ n.localTxns, (n.conn c).Spares nts.id

theorem Counts.enqueue (h : Counts n) (msg : NetMessage) {triggerSend : Bool}
    (hsafe : triggerSend = true → (n.conn c).TakesWrites ∨ n.Spares c) :
    Counts (n.update c fun conn => conn.enqueue content.pack msg triggerSend) := by
  refine h.update ((h.writing c).queueWrite _ _ _) fun nts hnts => ?_
  exact countInFlight_queueWrite_sent (h.writing c) _
    (fun hsend => (hsafe hsend).imp_right fun hspares => hspares nts hnts) _

theorem Counts.sendAll (h : Counts n) (msg : NetMessage) (verify : ConnectionId → Bool) :
    Counts (n.sendAll content msg verify) :=
  sendAll_induction (fun _ _ h hopen => h.enqueue msg fun _ => .inl (.inr hopen)) verify h

/-! ### Transactions on request -/

theorem findTxn_modifyTxn (id t : TransactionId)
    {g : NodeTransactionState → NodeTransactionState} (hg : ∀ nts, (g nts).id = nts.id) :
    (n.modifyTxn id g).findTxn t =
      (n.findTxn t).map fun nts => if nts.id = id then g nts else nts := by
  rw [findTxn, modifyTxn, List.find?_map, findTxn]
  congr 2
  funext nts
  rw [Function.comp_apply]
  split <;> simp [hg]

/-- A local transaction with its buffer, as it is sent. -/
def held (n : Relay) (t : TransactionId) : Option (TransactionId × Bytes) :=
  (n.findTxn t).bind fun tx =>
    if tx.serializedTxn ≠ [] then some (t, tx.serializedTxn) else none

/-- What a request has the node send: the identifiers and the buffers. -/
def requested (n : Relay) (reqTrx : SelectIds) : List (TransactionId × Bytes) :=
  match reqTrx.mode with
  | .catchUp =>
    (n.localTxns.filter fun tx =>
      tx.serializedTxn ≠ [] ∧ tx.blockNum = 0 ∧ tx.id ∉ reqTrx.ids).map
        fun tx => (tx.id, tx.serializedTxn)
  | .normal => reqTrx.ids.filterMap n.held
  | _ => []

theorem held_sendTxn (id : TransactionId) (buff : Bytes) :
    (n.sendTxn c id buff).held = n.held := by
  funext t
  have hsent : (n.sendTxn c id buff).findTxn t = (n.modifyTxn id incrInFlight).findTxn t := rfl
  rw [held, hsent, findTxn_modifyTxn id t id_incrInFlight, Option.bind_map, held]
  congr 1
  funext nts
  rw [Function.comp_apply]
  split
  · rw [incrInFlight, serializedTxn_updateInFlight]
  · rfl

theorem handleRequest_eq (n : Relay) (c : ConnectionId) (reqTrx : SelectIds) :
    n.handleRequest c reqTrx =
      (n.requested reqTrx).foldl (fun n w => n.sendTxn c w.1 w.2) n := by
  unfold handleRequest requested
  cases reqTrx.mode with
  | catchUp =>
      simp only [txnSendPending, List.foldl_map, List.foldl_filter, decide_eq_true_eq]
  | normal =>
      dsimp only
      generalize reqTrx.ids = ids
      unfold txnSend
      induction ids generalizing n with
      | nil => rfl
      | cons t ids ih =>
          rw [List.foldl_cons, ih, List.filterMap_cons]
          cases hfind : n.findTxn t with
          | none => simp [held, hfind]
          | some tx =>
              by_cases hempty : tx.serializedTxn = []
              · simp [held, hfind, hempty]
              · have hheld : n.held t = some (t, tx.serializedTxn) := by
                  simp [held, hfind, hempty]
                simp [hheld, hempty, held_sendTxn]
  | _ => rfl

theorem mem_localTxns_modifyTxn {id : TransactionId} {nts : NodeTransactionState}
    {g : NodeTransactionState → NodeTransactionState} (h : nts ∈ (n.modifyTxn id g).localTxns) :
    (nts ∈ n.localTxns ∧ nts.id ≠ id) ∨ ∃ old ∈ n.localTxns, old.id = id ∧ nts = g old := by
  obtain ⟨old, hold, rfl⟩ := List.mem_map.mp h
  split
  · rename_i hid
    exact .inr ⟨old, hold, hid, rfl⟩
  · rename_i hid
    exact .inl ⟨hold, hid⟩

theorem ids_modifyTxn (id : TransactionId) {g : NodeTransactionState → NodeTransactionState}
    (hg : ∀ nts, (g nts).id = nts.id) :
    (n.modifyTxn id g).localTxns.map NodeTransactionState.id =
      n.localTxns.map NodeTransactionState.id := by
  rw [modifyTxn, List.map_map]
  refine List.map_congr_left fun nts _ => ?_
  rw [Function.comp_apply]
  split
  · exact hg nts
  · rfl

theorem countInFlight_sendTxn (h : Counts n) (hc : c ∈ n.objects)
    (hopen : (n.conn c).TakesWrites) (id : TransactionId) (buff : Bytes) (t : TransactionId) :
    (n.sendTxn c id buff).countInFlight t = n.countInFlight t + if id = t then 1 else 0 := by
  have hupdate : (n.sendTxn c id buff).countInFlight t + (n.conn c).countInFlight t =
      n.countInFlight t + ((n.conn c).queueWrite buff true (.decrInFlight id)).countInFlight t :=
    countInFlight_update (n := n.modifyTxn id incrInFlight) hc t
  rw [countInFlight_queueWrite (h.writing c) hopen] at hupdate
  simp only [Callback.decrInFlight.injEq] at hupdate
  omega

/-- A write of a transaction that is queued is counted. -/
theorem Counts.sendTxn (h : Counts n) (hc : c ∈ n.objects) (hopen : (n.conn c).TakesWrites)
    {id : TransactionId} (buff : Bytes) (hfits : n.countInFlight id + 1 < 2 ^ 16) :
    Counts (n.sendTxn c id buff) where
  writing := writing_update (n := n.modifyTxn id incrInFlight) h.writing
    ((h.writing c).queueWrite _ _ _)
  nodup := (ids_modifyTxn id id_incrInFlight).symm ▸ h.nodup
  balanced nts hnts := by
    rw [countInFlight_sendTxn h hc hopen]
    obtain ⟨hold, hne⟩ | ⟨old, hold, hid, rfl⟩ := mem_localTxns_modifyTxn hnts
    · rw [if_neg (Ne.symm hne), add_zero]
      exact h.balanced nts hold
    · have hbalanced := h.balanced old hold
      rw [hid] at hbalanced
      rw [id_incrInFlight, hid, if_pos rfl, requests_incrInFlight old (hbalanced ▸ hfits), hbalanced]

/-- The count of every transaction has room for the writes of it that are queued. -/
def Fits (n : Relay) (ws : List (TransactionId × Bytes)) : Prop :=
  ∀ w ∈ ws, n.countInFlight w.1 + ws.countP (·.1 = w.1) < 2 ^ 16

theorem Counts.sendTxns (h : Counts n) (hc : c ∈ n.objects) (hopen : (n.conn c).TakesWrites)
    {ws : List (TransactionId × Bytes)} (hfits : n.Fits ws) :
    Counts (ws.foldl (fun n w => n.sendTxn c w.1 w.2) n) := by
  induction ws generalizing n with
  | nil => exact h
  | cons w ws ih =>
      have hone : n.countInFlight w.1 + 1 < 2 ^ 16 := by
        have hw := hfits w List.mem_cons_self
        rw [List.countP_cons_of_pos (by simp)] at hw
        omega
      refine ih (h.sendTxn hc hopen w.2 hone) hc ?_ fun w' hw' => ?_
      · have hqueue : (n.sendTxn c w.1 w.2).conn c =
            (n.conn c).queueWrite w.2 true (.decrInFlight w.1) := update_conn_self ..
        rw [hqueue]
        exact hopen.queueWrite w.2 true _
      · have hw := hfits w' (List.mem_cons_of_mem w hw')
        rw [List.countP_cons] at hw
        simp only [decide_eq_true_eq] at hw
        rw [countInFlight_sendTxn h hc hopen]
        omega

/-! ### Completed writes -/

/-- The callbacks of the writes `q` lead from `n` to `n'`. -/
structure CountsDown (q : List QueuedWrite) (n n' : Relay) : Prop where
  objects : n'.objects = n.objects
  conn : n'.conn = n.conn
  ids : n'.localTxns.map NodeTransactionState.id = n.localTxns.map NodeTransactionState.id
  entries : ∀ nts ∈ n'.localTxns, ∃ old ∈ n.localTxns, old.id = nts.id ∧
    (q.countP (decrements old.id) ≤ old.requests.toNat →
      nts.requests.toNat + q.countP (decrements old.id) = old.requests.toNat)

theorem countsDown_nil (n : Relay) : CountsDown [] n n :=
  ⟨rfl, rfl, rfl, fun nts hnts => ⟨nts, hnts, rfl, fun _ => rfl⟩⟩

theorem countsDown_call (n : Relay) (m : QueuedWrite) : CountsDown [m] n (n.call m) := by
  cases hcallback : m.callback with
  | sent reason =>
      rw [Relay.call, hcallback]
      refine ⟨rfl, rfl, rfl, fun nts hnts => ⟨nts, hnts, rfl, fun _ => ?_⟩⟩
      rw [List.countP_singleton, decrements, hcallback]
      rfl
  | decrInFlight id =>
      have hcall : n.call m = n.modifyTxn id decrInFlight := by rw [Relay.call, hcallback]
      rw [hcall]
      refine ⟨rfl, rfl, ids_modifyTxn id id_decrInFlight, fun nts hnts => ?_⟩
      have hcount : ∀ t, [m].countP (decrements t) = if id = t then 1 else 0 := fun t => by
        rw [List.countP_singleton, decrements, hcallback]
        simp only [Callback.decrInFlight.injEq, decide_eq_true_eq]
      obtain ⟨hold, hne⟩ | ⟨old, hold, hid, hdecr⟩ :=
        @mem_localTxns_modifyTxn n id nts decrInFlight hnts
      · refine ⟨nts, hold, rfl, fun _ => ?_⟩
        rw [hcount, if_neg (Ne.symm hne), add_zero]
      · rw [hdecr]
        refine ⟨old, hold, old.id_decrInFlight.symm, fun hle => ?_⟩
        rw [hcount, if_pos hid.symm] at hle ⊢
        exact old.requests_decrInFlight hle

theorem CountsDown.cons {m : QueuedWrite} {q : List QueuedWrite} {n n₁ n₂ : Relay}
    (hm : CountsDown [m] n n₁) (hq : CountsDown q n₁ n₂) : CountsDown (m :: q) n n₂ where
  objects := hq.objects.trans hm.objects
  conn := hq.conn.trans hm.conn
  ids := hq.ids.trans hm.ids
  entries nts hnts := by
    obtain ⟨mid, hmid, hid, hcount⟩ := hq.entries nts hnts
    obtain ⟨old, hold, hid', hcount'⟩ := hm.entries mid hmid
    refine ⟨old, hold, hid'.trans hid, fun hle => ?_⟩
    rw [← List.singleton_append, List.countP_append] at hle ⊢
    have hfirst := hcount' (by omega)
    rw [← hid'] at hcount
    have hrest := hcount (by omega)
    omega

theorem countsDown_calls (q : List QueuedWrite) (n : Relay) :
    CountsDown q n (q.foldl Relay.call n) := by
  induction q generalizing n with
  | nil => exact countsDown_nil n
  | cons m q ih => exact (countsDown_call n m).cons (ih (n.call m))

/-- A write that is reported back counts down what is in flight, as long as the connection
stays open or nothing waits on it. -/
theorem Counts.writeDone (h : Counts n) (hc : c ∈ n.objects)
    {fetch : UInt32 → Option SignedBlock} {k : ℕ} {failed : Bool}
    (hk : k < (n.conn c).socket.outstanding.length)
    (hsafe : (n.conn c).Succeeds failed ∨ n.Spares c) :
    Counts (n.writeDone content c fetch k failed) := by
  have hinProgress : InProgress (n.conn c) := by
    obtain hprogress | hsilent := h.writing c
    · exact hprogress
    · rw [hsilent.outstanding] at hk
      exact absurd hk (Nat.not_lt_zero k)
  have hcalls := countsDown_calls (n.conn c).outQueue n
  rw [Relay.writeDone]
  generalize (n.conn c).outQueue.foldl Relay.call n = n₁ at hcalls
  refine ⟨writing_update (hcalls.conn ▸ h.writing) ?_, hcalls.ids ▸ h.nodup, fun nts hnts => ?_⟩
  · rw [hcalls.conn]
    have hdone : writeStep content.pack (n.conn c) (.writeDone fetch k failed) =
        .ok ((n.conn c).writeDone content.pack fetch k failed) := by
      rw [writeStep, if_pos hk]
    exact (h.writing c).step hdone
  · obtain ⟨old, hold, hid, hcount⟩ := hcalls.entries nts hnts
    have hbalanced := h.balanced old hold
    have hconn := countInFlight_writeDone old.id content.pack hinProgress fetch hk
      (hsafe.imp_right fun hspares => hspares old hold)
    have hle := countInFlight_le hc old.id
    have hupdate := countInFlight_update (n := n₁) (f := fun conn =>
      conn.writeDone content.pack fetch k failed) (hcalls.objects ▸ hc) old.id
    have hsame : n₁.countInFlight old.id = n.countInFlight old.id := by
      rw [countInFlight, countInFlight, hcalls.objects, hcalls.conn]
    rw [hsame, hcalls.conn] at hupdate
    rw [← hid]
    have hrequests := hcount (by omega)
    omega

/-! ### The other steps -/

/-- Entries that are changed without what is counted, or go. -/
theorem Counts.sublist (h : Counts n) {txns : List NodeTransactionState}
    (hids : (txns.map NodeTransactionState.id).Sublist (n.localTxns.map NodeTransactionState.id))
    (hentries : ∀ nts ∈ txns, ∃ old ∈ n.localTxns, old.id = nts.id ∧ old.requests = nts.requests) :
    Counts { n with localTxns := txns } where
  writing := h.writing
  nodup := hids.nodup h.nodup
  balanced nts hnts := by
    obtain ⟨old, hold, hid, hrequests⟩ := hentries nts hnts
    rw [← hrequests, ← hid]
    exact h.balanced old hold

theorem Counts.expireTxns (h : Counts n) (now lib : UInt32) : Counts (n.expireTxns now lib) := by
  have hsub := (List.filter_sublist (l := n.localTxns.filter fun nts => now < nts.expires)
    (p := fun nts => ¬ (1 ≤ nts.blockNum ∧ nts.blockNum ≤ lib))).trans List.filter_sublist
  exact h.sublist (hsub.map _) fun nts hnts => ⟨nts, hsub.subset hnts, rfl, rfl⟩

theorem Counts.modifyTxn (h : Counts n) (id : TransactionId)
    {g : NodeTransactionState → NodeTransactionState} (hid : ∀ nts, (g nts).id = nts.id)
    (hrequests : ∀ nts, (g nts).requests = nts.requests) : Counts (n.modifyTxn id g) := by
  have hids := ids_modifyTxn (n := n) id hid
  refine h.sublist (hids ▸ List.Sublist.refl _) fun nts hnts => ?_
  obtain ⟨hold, -⟩ | ⟨old, hold, -, heq⟩ := @mem_localTxns_modifyTxn n id nts g hnts
  · exact ⟨nts, hold, rfl, rfl⟩
  · rw [heq]
    exact ⟨old, hold, (hid old).symm, (hrequests old).symm⟩

theorem Counts.updateBlockNums (h : Counts n) (msg : SignedBlock) :
    Counts (n.updateBlockNums content msg) := by
  unfold Relay.updateBlockNums
  induction content.transactions msg generalizing n with
  | nil => exact h
  | cons id ids ih =>
      exact ih (h.modifyTxn id (fun nts => nts.id_updateBlockNum _)
        fun nts => nts.requests_updateBlockNum _)

/-- The entry of a transaction that is not in flight. -/
theorem Counts.insertTxn (h : Counts n) {nts : NodeTransactionState} (hrequests : nts.requests = 0)
    (hfresh : n.findTxn nts.id = none) (hnone : n.countInFlight nts.id = 0) :
    Counts (n.insertTxn nts) where
  writing := h.writing
  nodup := by
    have hperm := (List.perm_orderedInsert (fun a b => a.id ≤ b.id) nts n.localTxns).map
      NodeTransactionState.id
    refine hperm.nodup_iff.mpr (List.nodup_cons.mpr ⟨fun hmem => ?_, h.nodup⟩)
    obtain ⟨old, hold, hid⟩ := List.mem_map.mp hmem
    have hne := List.find?_eq_none.mp hfresh old hold
    exact hne (decide_eq_true hid)
  balanced nts' hnts' := by
    have hperm := List.perm_orderedInsert (fun a b => a.id ≤ b.id) nts n.localTxns
    obtain rfl | hold := List.mem_cons.mp (hperm.subset hnts')
    · rw [hrequests]
      exact hnone.symm
    · exact h.balanced nts' hold

/-- What is counted does not depend on the origins. -/
theorem Counts.congr {n' : Relay} (h : Counts n) (hobjects : n'.objects = n.objects)
    (hconn : n'.conn = n.conn) (htxns : n'.localTxns = n.localTxns) : Counts n' where
  writing := hconn ▸ h.writing
  nodup := htxns ▸ h.nodup
  balanced nts hnts := by
    rw [countInFlight, hobjects, hconn]
    exact h.balanced nts (htxns ▸ hnts)

theorem Counts.bcastBlock (h : Counts n) (bsum : SignedBlock) :
    Counts (n.bcastBlock content bsum) := by
  unfold Relay.bcastBlock
  refine Counts.sendAll ?_ _ _
  exact h.congr rfl rfl rfl

theorem Counts.bcastBlocks (h : Counts n) (blocks : List SignedBlock) :
    Counts (blocks.foldl (Relay.bcastBlock content) n) := by
  induction blocks generalizing n with
  | nil => exact h
  | cons block blocks ih => exact ih (h.bcastBlock block)

theorem Counts.verdict (h : Counts n) (trx : PackedTransaction) (accepted : Bool)
    (unknownTo : List ConnectionId)
    (hnone : accepted = true → n.findTxn trx.id = none → n.countInFlight trx.id = 0) :
    Counts (n.verdict content trx accepted unknownTo) := by
  unfold Relay.verdict
  split
  · rename_i haccepted
    unfold Relay.bcastTransaction
    dsimp only
    split
    · exact h.congr rfl rfl rfl
    · rename_i hfresh
      have hfresh' : n.findTxn trx.id = none := Option.not_isSome_iff_eq_none.mp hfresh
      refine Counts.sendAll (Counts.insertTxn ?_ rfl hfresh' ?_) _ _
      · exact h.congr rfl rfl rfl
      · exact hnone haccepted hfresh'
  · exact h.congr rfl rfl rfl

theorem Counts.cancelSync (h : Counts n) (hspares : n.Spares c) (reason : GoAwayReason) :
    Counts (n.cancelSync content c reason) := by
  have hflush : Counts (n.update c Connection.flushQueues) :=
    h.update ((h.writing c).congr rfl rfl) fun nts hnts => countInFlight_flushQueues (hspares nts hnts)
  have hempty : ∀ id, ((n.update c Connection.flushQueues).conn c).Spares id := fun id => by
    rw [update_conn_self]
    rfl
  unfold Relay.cancelSync
  dsimp only
  split
  · refine Counts.enqueue (hflush.update ?_ fun nts hnts => ?_) _ fun _ => .inr fun nts hnts => ?_
    · exact (hflush.writing c).congr rfl rfl
    · exact countInFlight_congr rfl rfl rfl
    · rw [update_conn_self]
      exact hempty nts.id
  · exact hflush.enqueue _ fun _ => .inr fun nts _ => hempty nts.id

theorem Counts.handleGoAway (h : Counts n) (hspares : n.Spares c) (msg : GoAwayMessage) :
    Counts (n.handleGoAway c msg) := by
  refine h.update ?_ fun nts hnts => ?_
  · dsimp only
    split <;> exact (h.writing c).congr rfl rfl
  · dsimp only
    split <;> exact countInFlight_dropped (hspares nts hnts) rfl rfl rfl

theorem Counts.close (h : Counts n) (hspares : n.Spares c) : Counts (n.update c Connection.close) :=
  h.update ((h.writing c).congr rfl rfl) fun nts hnts => countInFlight_close (hspares nts hnts)

theorem Counts.add (h : Counts n) (hc : c ∉ n.objects) {conn : Connection} (hconn : Idle conn) :
    Counts (n.add c conn) := by
  have hothers : ∀ d, d ≠ c → (n.add c conn).conn d = n.conn d := fun d hd =>
    Function.update_of_ne hd _ _
  have hself : (n.add c conn).conn c = conn := Function.update_self ..
  refine ⟨fun d => ?_, h.nodup, fun nts hnts => ?_⟩
  · by_cases hd : d = c
    · rw [hd, hself]
      exact .inl hconn.inProgress
    · rw [hothers d hd]
      exact h.writing d
  · have hzero : conn.countInFlight nts.id = 0 := by
      rw [countInFlight_of_idle hconn.outstanding, hconn.writeQueue]
      rfl
    rw [h.balanced nts hnts, Relay.countInFlight, Relay.countInFlight, Relay.add,
      Finset.sum_insert hc]
    dsimp only
    rw [Function.update_self, hzero, zero_add]
    refine Finset.sum_congr rfl fun d hd => ?_
    rw [Function.update_of_ne (ne_of_mem_of_not_mem hd hc)]

theorem Counts.destroy (h : Counts n)
    (hnone : ∀ nts ∈ n.localTxns, (n.conn c).countInFlight nts.id = 0) :
    Counts { n with objects := n.objects.erase c } where
  writing := h.writing
  nodup := h.nodup
  balanced nts hnts := by
    rw [h.balanced nts hnts]
    exact (Finset.sum_erase n.objects (f := fun d => (n.conn d).countInFlight nts.id)
      (hnone nts hnts)).symm

/-! ### Runs -/

/-- No write of a local transaction is dropped, the entry of a transaction is made when
nothing of it is in flight, and its count has room. -/
def KeepsOn (n : Relay) (c : ConnectionId) : PeerEvent → Prop
  | .destroy => ∀ nts ∈ n.localTxns, (n.conn c).countInFlight nts.id = 0
  | .enqueue _ triggerSend => triggerSend = true → (n.conn c).TakesWrites ∨ n.Spares c
  | .syncRequest fetch msg => (msg.endBlock = 0 → n.Spares c) ∧
      (msg.endBlock ≠ 0 → fetch msg.startBlock ≠ none → (n.conn c).TakesWrites ∨ n.Spares c)
  | .cancelSync _ | .goAway _ | .close => n.Spares c
  | .writeDone _ _ failed => (n.conn c).Succeeds failed ∨ n.Spares c
  | .request reqTrx =>
      n.requested reqTrx = [] ∨ (n.conn c).TakesWrites ∧ n.Fits (n.requested reqTrx)
  | .dial | .connectionMonitor | .packedTransaction .. | .signedBlock .. => True

def Keeps (n : Relay) : RelayEvent → Prop
  | .on c e => n.KeepsOn c e
  | .verdict trx accepted _ | .transactionAck trx accepted _ =>
      accepted = true → n.findTxn trx.id = none → n.countInFlight trx.id = 0
  | .accept _ | .connect .. | .acceptedBlock _ | .expireTxns .. => True

instance : Decidable n.Balanced :=
  inferInstanceAs (Decidable (∀ nts ∈ n.localTxns, _))

instance : Decidable (n.Spares c) := inferInstanceAs (Decidable (∀ nts ∈ n.localTxns, _))

instance {ws : List (TransactionId × Bytes)} : Decidable (n.Fits ws) :=
  inferInstanceAs (Decidable (∀ w ∈ ws, _))

instance : (e : PeerEvent) → Decidable (n.KeepsOn c e)
  | .destroy => inferInstanceAs (Decidable (∀ nts ∈ n.localTxns, _))
  | .enqueue .. => inferInstanceAs (Decidable (_ → _ ∨ _))
  | .syncRequest .. => inferInstanceAs (Decidable ((_ → _) ∧ (_ → _ → _ ∨ _)))
  | .cancelSync _ | .goAway _ | .close => inferInstanceAs (Decidable (n.Spares c))
  | .writeDone .. => inferInstanceAs (Decidable (_ ∨ _))
  | .request reqTrx => inferInstanceAs (Decidable (n.requested reqTrx = [] ∨ _ ∧ _))
  | .dial | .connectionMonitor | .packedTransaction .. | .signedBlock .. =>
    inferInstanceAs (Decidable True)

instance : (e : RelayEvent) → Decidable (n.Keeps e)
  | .on _ _ => inferInstanceAs (Decidable (n.KeepsOn _ _))
  | .verdict .. | .transactionAck .. => inferInstanceAs (Decidable (_ → _ → _ = _))
  | .accept _ | .connect .. | .acceptedBlock _ | .expireTxns .. => inferInstanceAs (Decidable True)

theorem Counts.peerStep {n' : Relay} {e : PeerEvent} (h : Counts n) (hc : c ∈ n.objects)
    (hkeeps : n.KeepsOn c e) (htakes : PeerTakes content n c e n') : Counts n' := by
  cases htakes with
  | dial => exact h.update ((h.writing c).congr rfl rfl) fun _ _ => countInFlight_congr rfl rfl rfl
  | connectionMonitor => exact h.congr rfl rfl rfl
  | destroy => exact h.destroy hkeeps
  | enqueue msg triggerSend => exact h.enqueue msg hkeeps
  | syncRequest fetch msg =>
      refine h.update ((h.writing c).step (e := .syncRequest fetch msg) rfl) fun nts hnts => ?_
      exact countInFlight_handleSyncRequest (h.writing c) fetch msg
        (fun hend => hkeeps.1 hend nts hnts)
        fun hend hfetch => (hkeeps.2 hend hfetch).imp_right fun hspares => hspares nts hnts
  | cancelSync reason => exact h.cancelSync hkeeps reason
  | goAway msg => exact h.handleGoAway hkeeps msg
  | close => exact h.close hkeeps
  | writeDone fetch k failed hwritten => exact h.writeDone hc hwritten hkeeps
  | request reqTrx =>
      rw [handleRequest_eq]
      obtain hnone | ⟨hopen, hfits⟩ := hkeeps
      · rw [hnone]
        exact h
      · exact h.sendTxns hc hopen hfits
  | packedTransaction msg ignored =>
      unfold Relay.handlePackedTransaction
      split
      · exact h
      · split
        · exact h
        · exact h.congr rfl rfl rfl
  | signedBlock msg known outcome signalled =>
      unfold Relay.handleSignedBlock
      split
      · exact h
      · have hrecv : Counts (n.recvBlock c msg.id) := h.congr rfl rfl rfl
        have hsignalled := @bcastBlocks content _ hrecv signalled
        dsimp only
        split
        · exact hsignalled.updateBlockNums msg
        · exact hsignalled

theorem Counts.step {n' : Relay} {e : RelayEvent} (h : Counts n) (hkeeps : n.Keeps e)
    (hstep : n.step content e = .ok n') : Counts n' := by
  cases takes_of_step hstep with
  | accept c hnew => exact h.add hnew ⟨rfl, rfl, rfl, rfl⟩
  | connect c endpoint hnew => exact h.add hnew ⟨rfl, rfl, rfl, rfl⟩
  | on c e hc htakes => exact h.peerStep hc hkeeps htakes
  | verdict trx accepted unknownTo =>
      refine Counts.verdict ?_ trx accepted unknownTo hkeeps
      exact h.congr rfl rfl rfl
  | transactionAck trx accepted unknownTo => exact h.verdict trx accepted unknownTo hkeeps
  | acceptedBlock block => exact h.bcastBlock block
  | expireTxns now lib => exact h.expireTxns now lib

/-! ### The blocks of the transactions -/

/-- An entry of which nothing is in flight goes once its block is irreversible. -/
theorem Counts.purged (h : Counts n) {nts : NodeTransactionState} (hnts : nts ∈ n.localTxns)
    (hnone : n.countInFlight nts.id = 0) (hincluded : 1 ≤ nts.recorded) {lib : UInt32}
    (hlib : nts.recorded ≤ lib) (now : UInt32) :
    ∀ nts' ∈ (n.expireTxns now lib).localTxns, nts'.id ≠ nts.id := by
  intro nts' hnts' hid
  have hrequests : nts.requests = 0 :=
    UInt16.toNat_inj.mp ((h.balanced nts hnts).trans hnone)
  have hrecorded : nts.recorded = nts.blockNum := if_pos hrequests
  rw [hrecorded] at hincluded hlib
  obtain ⟨hunexpired, hkept⟩ := List.mem_filter.mp hnts'
  have hsame : nts' = nts :=
    List.inj_on_of_nodup_map h.nodup (List.mem_filter.mp hunexpired).1 hnts hid
  rw [hsame] at hkept
  exact of_decide_eq_true hkept ⟨hincluded, hlib⟩

/-- The entries of `n'` are entries of `n`, with the blocks that they had. -/
def SameRecords (n n' : Relay) : Prop :=
  ∀ nts ∈ n'.localTxns, ∃ old ∈ n.localTxns, old.id = nts.id ∧ nts.recorded = old.recorded

theorem SameRecords.of_eq {n' : Relay} (h : n'.localTxns = n.localTxns) : SameRecords n n' :=
  fun nts hnts => ⟨nts, h ▸ hnts, rfl, rfl⟩

theorem SameRecords.trans {n₁ n₂ : Relay} (h : SameRecords n n₁) (h' : SameRecords n₁ n₂) :
    SameRecords n n₂ := fun nts hnts => by
  obtain ⟨mid, hmid, hid, hrecorded⟩ := h' nts hnts
  obtain ⟨old, hold, hid', hrecorded'⟩ := h mid hmid
  exact ⟨old, hold, hid'.trans hid, hrecorded.trans hrecorded'⟩

theorem sameRecords_modifyTxn (n : Relay) (id : TransactionId) {incr : ℤ}
    (h : UInt16.ofInt incr ≠ 0) : SameRecords n (n.modifyTxn id (updateInFlight · incr)) := by
  intro nts hnts
  obtain ⟨hold, -⟩ | ⟨old, hold, -, heq⟩ := @mem_localTxns_modifyTxn n id nts _ hnts
  · exact ⟨nts, hold, rfl, rfl⟩
  · rw [heq]
    exact ⟨old, hold, (old.id_updateInFlight incr).symm, old.recorded_updateInFlight incr h⟩

theorem sameRecords_sendTxns (n : Relay) (c : ConnectionId) (ws : List (TransactionId × Bytes)) :
    SameRecords n (ws.foldl (fun n w => n.sendTxn c w.1 w.2) n) := by
  induction ws generalizing n with
  | nil => exact .of_eq rfl
  | cons w ws ih =>
      have hsent : SameRecords n (n.sendTxn c w.1 w.2) := by
        have hincr : UInt16.ofInt 1 ≠ 0 := by decide
        exact (sameRecords_modifyTxn n w.1 hincr).trans (.of_eq rfl)
      exact hsent.trans (ih _)

theorem sameRecords_calls (n : Relay) (q : List QueuedWrite) :
    SameRecords n (q.foldl Relay.call n) := by
  induction q generalizing n with
  | nil => exact .of_eq rfl
  | cons m q ih =>
      have hcall : SameRecords n (n.call m) := by
        cases hcallback : m.callback with
        | sent reason =>
            rw [Relay.call, hcallback]
            exact .of_eq rfl
        | decrInFlight id =>
            have hdecr : UInt16.ofInt (-1) ≠ 0 := by decide
            rw [Relay.call, hcallback]
            exact sameRecords_modifyTxn n id hdecr
      exact hcall.trans (ih _)

theorem localTxns_sendAll (n : Relay) (msg : NetMessage) (verify : ConnectionId → Bool) :
    (n.sendAll content msg verify).localTxns = n.localTxns :=
  sendAll_induction (I := fun m => m.localTxns = n.localTxns) (fun _ _ h _ => h) verify rfl

theorem localTxns_bcastBlocks (n : Relay) (blocks : List SignedBlock) :
    (blocks.foldl (Relay.bcastBlock content) n).localTxns = n.localTxns := by
  induction blocks generalizing n with
  | nil => rfl
  | cons block blocks ih => exact (ih _).trans (localTxns_sendAll _ _ _)

/-- The block that the step says the transaction is in. -/
def includedIn (content : Contents) : RelayEvent → TransactionId → Option UInt32
  | .on _ (.signedBlock msg known outcome _), t =>
      if known = false ∧ Node.AcceptOutcome.reason outcome = .noReason ∧
          t ∈ content.transactions msg then some msg.blockNum
      else none
  | _, _ => none

/-- Every entry is an old one, with the block that it was in unless the step has another for
it, or one that has just been made, in no block. -/
def Records (content : Contents) (n : Relay) (e : RelayEvent) (n' : Relay) : Prop :=
  ∀ nts ∈ n'.localTxns,
    (∃ old ∈ n.localTxns, old.id = nts.id ∧
      nts.recorded = (includedIn content e nts.id).getD old.recorded) ∨
    n.findTxn nts.id = none ∧ nts.recorded = 0

theorem SameRecords.records {n' : Relay} {e : RelayEvent} (h : SameRecords n n')
    (he : ∀ id, includedIn content e id = none) : Records content n e n' := fun nts hnts => by
  obtain ⟨old, hold, hid, hrecorded⟩ := h nts hnts
  exact .inl ⟨old, hold, hid, by rw [he]; exact hrecorded⟩

theorem recorded_updateBlockNums (n : Relay) (num : UInt32) (ids : List TransactionId) :
    ∀ nts ∈ (ids.foldl (fun n id => n.modifyTxn id (updateBlockNum · num)) n).localTxns,
      ∃ old ∈ n.localTxns, old.id = nts.id ∧
        nts.recorded = if nts.id ∈ ids then num else old.recorded := by
  induction ids generalizing n with
  | nil => exact fun nts hnts => ⟨nts, hnts, rfl, rfl⟩
  | cons id ids ih =>
      intro nts hnts
      obtain ⟨mid, hmid, hid, hrecorded⟩ := ih _ nts hnts
      obtain ⟨hold, hne⟩ | ⟨old, hold, heq, rfl⟩ := @mem_localTxns_modifyTxn n id mid _ hmid
      · rw [hid] at hne
        exact ⟨mid, hold, hid, by simp [hrecorded, hne]⟩
      · rw [id_updateBlockNum] at hid
        refine ⟨old, hold, hid, ?_⟩
        rw [hrecorded, recorded_updateBlockNum, ← hid, heq]
        simp

theorem records_verdict (n : Relay) (trx : PackedTransaction) (accepted : Bool)
    (unknownTo : List ConnectionId) :
    ∀ nts ∈ (n.verdict content trx accepted unknownTo).localTxns,
      nts ∈ n.localTxns ∨ n.findTxn nts.id = none ∧ nts.recorded = 0 := by
  unfold Relay.verdict
  split
  · unfold Relay.bcastTransaction
    dsimp only
    split
    · exact fun nts hnts => .inl hnts
    · rename_i hfresh
      intro nts hnts
      rw [localTxns_sendAll, Relay.insertTxn] at hnts
      obtain rfl | hold := List.mem_cons.mp ((List.perm_orderedInsert _ _ _).subset hnts)
      · exact .inr ⟨Option.not_isSome_iff_eq_none.mp hfresh, rfl⟩
      · exact .inl hold
  · exact fun nts hnts => .inl hnts

theorem records_handleSignedBlock (n : Relay) (c : ConnectionId) (msg : SignedBlock) (known : Bool)
    (outcome : AcceptOutcome) (signalled : List SignedBlock) :
    Records content n (.on c (.signedBlock msg known outcome signalled))
      (n.handleSignedBlock content c msg known outcome signalled) := by
  unfold Relay.handleSignedBlock
  cases known with
  | true => exact fun nts hnts => .inl ⟨nts, hnts, rfl, rfl⟩
  | false =>
      rw [if_neg Bool.false_ne_true]
      dsimp only
      have hsignalled : (signalled.foldl (Relay.bcastBlock content)
          (n.recvBlock c msg.id)).localTxns = n.localTxns := localTxns_bcastBlocks _ _
      split
      · rename_i hreason
        intro nts hnts
        obtain ⟨old, hold, hid, hrecorded⟩ := recorded_updateBlockNums _ msg.blockNum _ nts hnts
        refine .inl ⟨old, hsignalled ▸ hold, hid, ?_⟩
        rw [hrecorded, includedIn]
        by_cases hmem : nts.id ∈ content.transactions msg
        · simp [hreason, hmem]
        · simp [hmem]
      · rename_i hreason
        intro nts hnts
        refine .inl ⟨nts, hsignalled ▸ hnts, rfl, ?_⟩
        rw [includedIn, if_neg fun hincluded => hreason hincluded.2.1]
        rfl

theorem records_peerStep {n' : Relay} {e : PeerEvent} (htakes : PeerTakes content n c e n') :
    Records content n (.on c e) n' := by
  cases htakes with
  | signedBlock msg known outcome signalled =>
      exact records_handleSignedBlock n c msg known outcome signalled
  | request reqTrx =>
      rw [handleRequest_eq]
      exact (sameRecords_sendTxns n c _).records fun _ => rfl
  | writeDone fetch k failed =>
      exact SameRecords.records ((sameRecords_calls n _).trans (.of_eq rfl)) fun _ => rfl
  | packedTransaction msg ignored =>
      refine SameRecords.records (.of_eq ?_) fun _ => rfl
      unfold Relay.handlePackedTransaction
      split
      · rfl
      · split <;> rfl
  | cancelSync reason =>
      refine SameRecords.records (.of_eq ?_) fun _ => rfl
      unfold Relay.cancelSync
      dsimp only
      split <;> rfl
  | dial | connectionMonitor | destroy | enqueue | syncRequest | goAway | close =>
      exact SameRecords.records (.of_eq rfl) fun _ => rfl

theorem records_step {n' : Relay} {e : RelayEvent} (hstep : n.step content e = .ok n') :
    Records content n e n' := by
  cases takes_of_step hstep with
  | on c e hc htakes => exact records_peerStep htakes
  | accept | connect => exact SameRecords.records (.of_eq rfl) fun _ => rfl
  | verdict trx accepted unknownTo =>
      exact fun nts hnts => (records_verdict _ trx accepted unknownTo nts hnts).imp_left
        fun hold => ⟨nts, hold, rfl, rfl⟩
  | transactionAck trx accepted unknownTo =>
      exact fun nts hnts => (records_verdict n trx accepted unknownTo nts hnts).imp_left
        fun hold => ⟨nts, hold, rfl, rfl⟩
  | acceptedBlock block => exact SameRecords.records (.of_eq (localTxns_sendAll _ _ _)) fun _ => rfl
  | expireTxns now lib =>
      refine SameRecords.records (fun nts hnts => ?_) fun _ => rfl
      exact ⟨nts, (List.mem_filter.mp (List.mem_filter.mp hnts).1).1, rfl, rfl⟩

/-- In every run in which no write of a local transaction is dropped, no transaction is taken
up again while a write of it is in flight, and no count runs over, each count is that of the
writes whose callbacks are to come.  The block of a transaction is recorded whatever is in
flight, and a transaction whose block is irreversible is purged once nothing of it is. -/
theorem in_flight_exact {es : List RelayEvent}
    (hes : Rollback.Along (step content) (fun n e _ => n.Keeps e) {} es) :
    (∀ n ∈ Rollback.trace (step content) {} es, n.Balanced ∧
      ∀ nts ∈ n.localTxns, n.countInFlight nts.id = 0 → 1 ≤ nts.recorded →
        ∀ lib, nts.recorded ≤ lib → ∀ now, ∀ nts' ∈ (n.expireTxns now lib).localTxns,
          nts'.id ≠ nts.id) ∧
      Rollback.Along (step content) (Records content) {} es := by
  have hstart : Counts {} :=
    ⟨fun _ => .inl rfl, List.nodup_nil, fun nts hnts => absurd hnts List.not_mem_nil⟩
  have htrace : ∀ n ∈ Rollback.trace (step content) {} es, Counts n :=
    Rollback.trace_induction_along (fun _ _ _ h hstep hkeeps => h.step hkeeps hstep) hes hstart
  refine ⟨fun n hn => ⟨(htrace n hn).balanced, ?_⟩, Rollback.along_of fun _ _ _ => records_step⟩
  intro nts hnts hnone hincluded lib hlib now
  exact (htrace n hn).purged hnts hnone hincluded hlib now

/-! ### Two runs -/

/-- One transaction, which is in one block. -/
def sampleContents : Contents where
  pack _ := [1, 2, 3]
  expiration _ := 3600
  transactions block := if block.id = 5 then [7] else []

/-- The transaction is asked for twice, so that its second write waits for the first. -/
def askedTwice : List RelayEvent :=
  [.accept 1, .transactionAck ⟨7⟩ true [], .on 1 (.request { mode := .normal, ids := [7] }),
    .on 1 (.request { mode := .catchUp }),
    .on 1 (.signedBlock ⟨5, 100⟩ false .accepted [⟨5, 100⟩])]

def bothSent : List RelayEvent :=
  askedTwice ++ [.on 1 (.writeDone (fun _ => none) 0 false), .on 1 (.writeDone (fun _ => none) 0 false)]

def goneAway : List RelayEvent :=
  askedTwice ++ [.on 1 (.goAway { reason := .noReason, nodeId := 0 }),
    .on 1 (.writeDone (fun _ => none) 0 true), .expireTxns 10 200]

theorem in_flight_exact_sent :
    (∀ n ∈ Rollback.trace (step sampleContents) {} bothSent, n.Balanced) ∧
      (Rollback.trace (step sampleContents) {} bothSent).map
        (fun n => n.localTxns.map fun nts => nts.requests) =
          [[], [], [0], [1], [2], [2], [1], [0]] := by
  refine ⟨fun n hn => ((in_flight_exact ?_).1 n hn).1, by decide +kernel⟩
  decide +kernel

/-- A peer that goes away takes the write with it that waits: the count stays at one with
nothing in flight, and the transaction outlives its block. -/
theorem in_flight_dropped :
    let n := Rollback.run (step sampleContents) {} goneAway
    ¬ n.Balanced ∧ n.countInFlight 7 = 0 ∧
      n.localTxns.map (fun nts => (nts.id, nts.requests, nts.recorded)) = [(7, 1, 100)] := by
  decide +kernel

end Relay

end Xidata.Net
