import Mathlib.Data.List.ReduceOption
import Xidata.Net.SyncPeers
import Xidata.Net.Writes

/-!
Serving a sync request.  Each write that is done looks for the next block of the
range in the chain, until the counter equals the end of the range.  The range is
taken from the peer as it is, and a counter that starts behind the end gets there
only after it has wrapped around.
-/

namespace Xidata.Net

open Connection

/-! ### The blocks of a range -/

/-- What the chain replies when the blocks from `num` on are looked for, one in each of the
states that the chain is in. -/
def replies : UInt32 → List (UInt32 → Option SignedBlock) → List (Option SignedBlock)
  | _, [] => []
  | num, fetch :: chains => fetch num :: replies (num + 1) chains

/-- No block is found after one that is missing. -/
def NoneMissed (found : List (Option SignedBlock)) : Prop :=
  found.Pairwise fun a b => b.isSome → a.isSome

/-- Every chain has the block with the number that it is asked for. -/
def Numbered (chains : List (UInt32 → Option SignedBlock)) : Prop :=
  ∀ fetch ∈ chains, ∀ num sb, fetch num = some sb → sb.blockNum = num

/-- What is to be sent for the request of a range: its blocks in order, none beyond its end and
no more than it has. -/
structure Serves (msg : SyncRequestMessage) (blocks : List SignedBlock) : Prop where
  consecutive : blocks.map (fun sb => sb.blockNum.toNat) =
    List.range' msg.startBlock.toNat blocks.length
  within : ∀ sb ∈ blocks, sb.blockNum ≤ msg.endBlock
  length : blocks.length ≤ msg.endBlock.toNat + 1 - msg.startBlock.toNat

/-- The block that follows one before the end of the range. -/
theorem toNat_next {num e : UInt32} (h : num < e) : (num + 1).toNat = num.toNat + 1 := by
  have he : e.toNat < 4294967296 := e.toNat_lt
  have hlt : num.toNat < e.toNat := UInt32.lt_iff_toNat_lt.mp h
  rw [UInt32.toNat_add, UInt32.toNat_one]
  omega

/-- One step of the counter brings it nearer to the end, around the wrap too. -/
theorem toNat_sub_next {num e : UInt32} (h : num ≠ e) :
    (e - (num + 1)).toNat + 1 = (e - num).toNat := by
  have hne : num.toNat ≠ e.toNat := fun heq => h (UInt32.toNat_inj.mp heq)
  have he : e.toNat < 4294967296 := e.toNat_lt
  have hn : num.toNat < 4294967296 := num.toNat_lt
  rw [UInt32.toNat_sub, UInt32.toNat_sub, UInt32.toNat_add, UInt32.toNat_one]
  omega

theorem mem_replies {num : UInt32} {chains : List (UInt32 → Option SignedBlock)} {sb : SignedBlock}
    (hnumbered : Numbered chains) (h : some sb ∈ replies num chains) :
    ∃ i < chains.length, sb.blockNum.toNat = (num.toNat + i) % 2 ^ 32 := by
  induction chains generalizing num with
  | nil => cases h
  | cons fetch chains ih =>
      rw [replies, List.mem_cons] at h
      obtain h | h := h
      · refine ⟨0, Nat.zero_lt_succ _, ?_⟩
        rw [hnumbered fetch List.mem_cons_self num sb h.symm, Nat.add_zero,
          Nat.mod_eq_of_lt num.toNat_lt]
      · obtain ⟨i, hi, hsb⟩ := ih (fun f hf => hnumbered f (List.mem_cons_of_mem fetch hf)) h
        refine ⟨i + 1, Nat.succ_lt_succ hi, ?_⟩
        rw [hsb, UInt32.toNat_add, UInt32.toNat_one, Nat.mod_add_mod, Nat.add_assoc,
          Nat.add_comm 1 i]

/-- Nothing is found exactly if every block is missing. -/
theorem nothing_found_iff {found : List (Option SignedBlock)} :
    found.reduceOption = [] ↔ ∀ a ∈ found, a = none := by
  rw [List.reduceOption_eq_nil_iff]
  constructor
  · rintro ⟨n, rfl⟩ a ha
    exact List.eq_of_mem_replicate ha
  · intro h
    exact ⟨_, List.eq_replicate_of_mem h⟩

/-- Nothing is found after the first block that is missing. -/
theorem noneMissed_cons_none {found : List (Option SignedBlock)} :
    NoneMissed (none :: found) ↔ ∀ a ∈ found, a = none := by
  rw [NoneMissed, List.pairwise_cons]
  constructor
  · intro h a ha
    by_contra hne
    exact absurd (h.1 a ha (Option.isSome_iff_ne_none.mpr hne)) Bool.false_ne_true
  · intro h
    refine ⟨fun a ha hsome => ?_, ?_⟩
    · rw [h a ha] at hsome
      exact hsome
    · rw [List.eq_replicate_of_mem h]
      exact List.pairwise_replicate.mpr (.inr id)

theorem noneMissed_cons_some {sb : SignedBlock} {found : List (Option SignedBlock)} :
    NoneMissed (some sb :: found) ↔ NoneMissed found := by
  rw [NoneMissed, List.pairwise_cons]
  exact and_iff_right fun _ _ _ => rfl

theorem serves_nil (msg : SyncRequestMessage) : Serves msg [] :=
  ⟨rfl, fun sb hsb => (by cases hsb), Nat.zero_le _⟩

theorem serves_last {num : UInt32} {sb : SignedBlock} (hsb : sb.blockNum = num) :
    Serves ⟨num, num⟩ [sb] := by
  refine ⟨?_, fun sb' hsb' => ?_, ?_⟩
  · simp [hsb]
  · rw [List.mem_singleton.mp hsb', hsb]
    exact UInt32.le_refl num
  · rw [List.length_singleton]
    dsimp only
    omega

/-- A block before the end of the range, and then what is served from the next one on. -/
theorem Serves.cons {num e : UInt32} {sb : SignedBlock} {blocks : List SignedBlock}
    (h : Serves ⟨num + 1, e⟩ blocks) (hsb : sb.blockNum = num) (hlt : num < e) :
    Serves ⟨num, e⟩ (sb :: blocks) := by
  have hnext : (num + 1).toNat = num.toNat + 1 := toNat_next hlt
  have hlt' : num.toNat < e.toNat := UInt32.lt_iff_toNat_lt.mp hlt
  refine ⟨?_, fun sb' hsb' => ?_, ?_⟩
  · rw [List.map_cons, h.consecutive, List.length_cons, List.range'_succ, hsb]
    dsimp only
    rw [hnext]
  · obtain rfl | hsb' := List.mem_cons.mp hsb'
    · rw [hsb]
      exact UInt32.le_of_lt hlt
    · exact h.within sb' hsb'
  · have hrange := h.length
    dsimp only at hrange ⊢
    rw [List.length_cons]
    omega

/-- As long as no block of the range is missing the blocks go out in order. -/
theorem serves_replies {num e : UInt32} {chains : List (UInt32 → Option SignedBlock)}
    (hnumbered : Numbered chains) (hlength : chains.length ≤ (e - num).toNat + 1) (hle : num ≤ e)
    (hmissed : NoneMissed (replies num chains)) :
    Serves ⟨num, e⟩ (replies num chains).reduceOption := by
  induction chains generalizing num with
  | nil => exact serves_nil _
  | cons fetch chains ih =>
      have hrest : Numbered chains := fun f hf => hnumbered f (List.mem_cons_of_mem fetch hf)
      rw [replies] at hmissed ⊢
      cases hfetch : fetch num with
      | none =>
          rw [hfetch, noneMissed_cons_none] at hmissed
          rw [List.reduceOption_cons_of_none, nothing_found_iff.mpr hmissed]
          exact serves_nil _
      | some sb =>
          rw [hfetch, noneMissed_cons_some] at hmissed
          have hsb : sb.blockNum = num := hnumbered fetch List.mem_cons_self num sb hfetch
          rw [List.reduceOption_cons_of_some]
          by_cases hend : num = e
          · -- The last block of the range.
            subst hend
            rw [UInt32.sub_self, List.length_cons, UInt32.toNat_zero] at hlength
            have hnil : chains = [] := List.eq_nil_of_length_eq_zero (by omega)
            rw [hnil]
            exact serves_last hsb
          · have hlt : num < e := UInt32.lt_of_le_of_ne hle hend
            have hle' : num + 1 ≤ e := by
              rw [UInt32.le_iff_toNat_le, toNat_next hlt]
              exact UInt32.lt_iff_toNat_lt.mp hlt
            have hlength' : chains.length ≤ (e - (num + 1)).toNat + 1 := by
              rw [toNat_sub_next hend]
              exact Nat.le_of_succ_le_succ hlength
            exact (ih hrest hlength' hle' hmissed).cons hsb hlt

/-- A block that was missing leaves a gap. -/
theorem noneMissed_of_consecutive {num : UInt32} {chains : List (UInt32 → Option SignedBlock)}
    (hnumbered : Numbered chains) (hlength : chains.length ≤ 2 ^ 32)
    (h : (replies num chains).reduceOption.map (fun sb => sb.blockNum.toNat) =
      List.range' num.toNat (replies num chains).reduceOption.length) :
    NoneMissed (replies num chains) := by
  induction chains generalizing num with
  | nil => exact List.Pairwise.nil
  | cons fetch chains ih =>
      have hrest : Numbered chains := fun f hf => hnumbered f (List.mem_cons_of_mem fetch hf)
      rw [List.length_cons] at hlength
      have hnum : num.toNat < 4294967296 := num.toNat_lt
      rw [replies] at h ⊢
      cases hfetch : fetch num with
      | none =>
          rw [noneMissed_cons_none, ← nothing_found_iff]
          rw [hfetch, List.reduceOption_cons_of_none] at h
          -- The first block that is found would have the number of the missing one.
          cases hfound : (replies (num + 1) chains).reduceOption with
          | nil => rfl
          | cons sb rest =>
              have hmem : some sb ∈ replies (num + 1) chains := by
                rw [← List.reduceOption_mem_iff, hfound]
                exact List.mem_cons_self
              obtain ⟨i, hi, hsb⟩ := mem_replies hrest hmem
              rw [hfound, List.map_cons, List.length_cons, List.range'_succ] at h
              have hfirst : sb.blockNum.toNat = num.toNat := (List.cons.inj h).1
              rw [hsb, UInt32.toNat_add, UInt32.toNat_one] at hfirst
              omega
      | some sb =>
          rw [noneMissed_cons_some]
          rw [hfetch, List.reduceOption_cons_of_some, List.map_cons, List.length_cons,
            List.range'_succ] at h
          apply ih hrest (by omega)
          by_cases hlast : num.toNat + 1 = 4294967296
          · cases hfound : (replies (num + 1) chains).reduceOption with
            | nil => rfl
            | cons sb' rest =>
                rw [hfound, List.map_cons, List.length_cons, List.range'_succ] at h
                have hnext := (List.cons.inj (List.cons.inj h).2).1
                have hlt : sb'.blockNum.toNat < 4294967296 := sb'.blockNum.toNat_lt
                omega
          · have hnext : (num + 1).toNat = num.toNat + 1 := by
              rw [UInt32.toNat_add, UInt32.toNat_one]
              omega
            rw [hnext]
            exact (List.cons.inj h).2

/-- What is found is what is to be sent exactly if the range is not empty, or nothing of it is
found, and no block of it is found after one that is missing. -/
theorem serves_replies_iff {msg : SyncRequestMessage}
    {chains : List (UInt32 → Option SignedBlock)} (hnumbered : Numbered chains)
    (hlength : chains.length ≤ (msg.endBlock - msg.startBlock).toNat + 1) :
    Serves msg (replies msg.startBlock chains).reduceOption ↔
      (msg.startBlock ≤ msg.endBlock ∨ ∀ a ∈ replies msg.startBlock chains, a = none) ∧
        NoneMissed (replies msg.startBlock chains) := by
  have hbits : (msg.endBlock - msg.startBlock).toNat < 4294967296 := UInt32.toNat_lt _
  constructor
  · intro h
    refine ⟨?_, noneMissed_of_consecutive hnumbered (by omega) h.consecutive⟩
    by_contra hnot
    rw [not_or, UInt32.not_le, UInt32.lt_iff_toNat_lt] at hnot
    apply hnot.2
    -- The range is empty.
    rw [← nothing_found_iff]
    apply List.eq_nil_of_length_eq_zero
    have hle := h.length
    omega
  · rintro ⟨hle | hnone, hmissed⟩
    · exact serves_replies hnumbered hlength hle hmissed
    · rw [nothing_found_iff.mpr hnone]
      exact serves_nil msg

/-! ### What an event does for a request -/

section Definitions

/-- The chain in which an event looks for the next block, if it looks for one. -/
def lookup (c : Connection) : WriteEvent → Option (UInt32 → Option SignedBlock)
  | .enqueueSyncBlock fetch => c.peerRequested.map fun _ => fetch
  | .syncRequest fetch msg => if msg.endBlock = 0 then none else some fetch
  | .writeDone fetch k failed =>
      if k < c.socket.outstanding.length ∧ failed = false then
        (c.outQueue.foldl call (reported c k failed)).peerRequested.map fun _ => fetch
      else none
  | _ => none

variable (pack : NetMessage → Bytes)

/-- The states of the chain in which blocks are looked for in the course of the events. -/
def lookups (c : Connection) : List WriteEvent → List (UInt32 → Option SignedBlock)
  | [] => []
  | e :: es => (lookup c e).toList ++ lookups (Rollback.push (writeStep pack) c e) es

/-- The write that an event brings with it. -/
def ownWrite : WriteEvent → List QueuedWrite
  | .queueWrite buff _ callback => [⟨buff, callback⟩]
  | _ => []

/-- The other writes that are queued in the course of the events. -/
def enqueued (c : Connection) : List WriteEvent → List QueuedWrite
  | [] => []
  | e :: es =>
    let c' := Rollback.push (writeStep pack) c e
    c'.log.queued.drop (c.log.queued.length + (ownWrite e).length) ++ enqueued c' es

def blockWrites (blocks : List SignedBlock) : List QueuedWrite :=
  blocks.map fun sb => framed pack (.signedBlock sb)

/-- The blocks of the range of a request, each as it is found at its turn. -/
def foundBlocks (c : Connection) (fetch : UInt32 → Option SignedBlock) (msg : SyncRequestMessage)
    (es : List WriteEvent) : List (Option SignedBlock) :=
  replies msg.startBlock (lookups pack c (.syncRequest fetch msg :: es))

end Definitions

/-- The state of a request after the next block was looked for. -/
def SyncState.next (s : SyncState) : Option SyncState :=
  if s.last + 1 = s.endBlock then none else some { s with last := s.last + 1 }

variable {pack : NetMessage → Bytes} {c : Connection}

/-- Nothing is queued, and a request is either kept as it is or given up. -/
def Keeps (c c' : Connection) : Prop :=
  c'.log.queued = c.log.queued ∧ (c'.peerRequested = c.peerRequested ∨ c'.peerRequested = none)

theorem Keeps.refl (c : Connection) : Keeps c c := ⟨rfl, .inl rfl⟩

theorem Keeps.trans {c' c'' : Connection} (h : Keeps c c') (h' : Keeps c' c'') : Keeps c c'' := by
  obtain ⟨hqueued, hrequested⟩ := h
  obtain ⟨hqueued', hkept | hgone⟩ := h'
  · rw [← hkept] at hrequested
    exact ⟨hqueued'.trans hqueued, hrequested⟩
  · exact ⟨hqueued'.trans hqueued, .inr hgone⟩

theorem keeps_close (c : Connection) : Keeps c c.close := ⟨rfl, .inr rfl⟩

theorem keeps_doQueueWrite (c : Connection) : Keeps c c.doQueueWrite := by
  obtain heq | heq | heq := c.doQueueWrite_eq <;> rw [heq]
  · exact .refl c
  · exact ⟨rfl, .inl rfl⟩
  · exact keeps_close c

theorem keeps_call (c : Connection) (m : QueuedWrite) : Keeps c (c.call m) := by
  unfold Connection.call
  cases m.callback with
  | sent closeAfterSend =>
      dsimp only
      split
      · exact ⟨rfl, .inr rfl⟩
      · exact ⟨rfl, .inl rfl⟩
  | decrInFlight id => exact ⟨rfl, .inl rfl⟩

theorem keeps_calls (q : List QueuedWrite) (c : Connection) : Keeps c (q.foldl call c) := by
  induction q generalizing c with
  | nil => exact .refl c
  | cons m q ih => exact (keeps_call c m).trans (ih (c.call m))

theorem enqueue_requested (c : Connection) (m : NetMessage) (triggerSend : Bool) :
    (c.enqueue pack m triggerSend).peerRequested = c.peerRequested ∨
      (c.enqueue pack m triggerSend).peerRequested = none := by
  rw [enqueue_eq]
  split
  · exact (keeps_doQueueWrite (c.pushWrite (framed pack m))).2
  · exact .inl rfl

/-- The next block of the range is looked for, and queued if it is there. -/
theorem enqueueSyncBlock_next {s : SyncState} (h : c.peerRequested = some s)
    (fetch : UInt32 → Option SignedBlock) :
    (c.enqueueSyncBlock pack fetch).log.queued =
        c.log.queued ++ blockWrites pack (fetch (s.last + 1)).toList ∧
      ((c.enqueueSyncBlock pack fetch).peerRequested = s.next ∨
        (c.enqueueSyncBlock pack fetch).peerRequested = none) := by
  unfold Connection.enqueueSyncBlock
  rw [h]
  dsimp only
  cases fetch (s.last + 1) with
  | none => exact ⟨(List.append_nil _).symm, .inl rfl⟩
  | some sb =>
      refine ⟨?_, enqueue_requested _ _ _⟩
      rw [enqueue_queued]
      rfl

theorem enqueueSyncBlock_idle (h : c.peerRequested = none) (fetch : UInt32 → Option SignedBlock) :
    c.enqueueSyncBlock pack fetch = c := by
  rw [Connection.enqueueSyncBlock, h]

/-- What an event that is not a request does for the one that is being served. -/
inductive Serving (pack : NetMessage → Bytes) (c : Connection) (e : WriteEvent) (c' : Connection) :
    Prop
  | idle (hlookup : lookup c e = none) (hqueued : c'.log.queued = c.log.queued ++ ownWrite e)
      (hkeeps : c'.peerRequested = c.peerRequested ∨ c'.peerRequested = none)
  | next (s : SyncState) (fetch : UInt32 → Option SignedBlock) (hs : c.peerRequested = some s)
      (hlookup : lookup c e = some fetch)
      (hqueued : c'.log.queued =
        c.log.queued ++ ownWrite e ++ blockWrites pack (fetch (s.last + 1)).toList)
      (hkeeps : c'.peerRequested = s.next ∨ c'.peerRequested = none)

def WriteEvent.isRequest : WriteEvent → Bool
  | .syncRequest _ _ => true
  | _ => false

theorem Keeps.idle {e : WriteEvent} {c' : Connection} (h : Keeps c c') (hlookup : lookup c e = none)
    (hown : ownWrite e = []) : Serving pack c e c' := by
  refine .idle hlookup ?_ h.2
  rw [hown, List.append_nil]
  exact h.1

/-- A refill of what is left of a connection, and the write that it may start. -/
theorem Keeps.refill {e : WriteEvent} {d : Connection} (h : Keeps c d)
    {fetch : UInt32 → Option SignedBlock}
    (hlookup : lookup c e = d.peerRequested.map fun _ => fetch) (hown : ownWrite e = []) :
    Serving pack c e (d.enqueueSyncBlock pack fetch).doQueueWrite := by
  have hwrite : Keeps (d.enqueueSyncBlock pack fetch)
      (d.enqueueSyncBlock pack fetch).doQueueWrite := keeps_doQueueWrite _
  cases hrequested : d.peerRequested with
  | none =>
      rw [hrequested] at hlookup
      refine Keeps.idle (h.trans ?_) hlookup hown
      rw [enqueueSyncBlock_idle hrequested] at hwrite ⊢
      exact hwrite
  | some s =>
      rw [hrequested] at hlookup
      have hs : c.peerRequested = some s := by
        obtain hkept | hgone := h.2
        · rw [← hkept, hrequested]
        · rw [hrequested] at hgone
          cases hgone
      obtain ⟨hqueued, hnext⟩ := @enqueueSyncBlock_next pack d s hrequested fetch
      refine .next s fetch hs hlookup ?_ ?_
      · rw [hwrite.1, hqueued, h.1, hown, List.append_nil]
      · obtain hkept | hgone := hwrite.2
        · rw [hkept]
          exact hnext
        · exact .inr hgone

theorem serving_writeDone (fetch : UInt32 → Option SignedBlock) {k : ℕ} {failed : Bool}
    (hk : k < c.socket.outstanding.length) :
    Serving pack c (.writeDone fetch k failed) (c.writeDone pack fetch k failed) := by
  have hcalls : Keeps c (c.outQueue.foldl call (reported c k failed)) :=
    Keeps.trans ⟨rfl, .inl rfl⟩ (keeps_calls c.outQueue (reported c k failed))
  rw [writeDone_eq]
  cases failed with
  | true =>
      refine Keeps.idle ?_ (if_neg fun h => (by cases h.2)) rfl
      rw [if_pos rfl]
      exact hcalls.trans (keeps_close _)
  | false =>
      rw [if_neg Bool.false_ne_true]
      have hlookup : lookup c (.writeDone fetch k false) =
          (c.outQueue.foldl call (reported c k false)).peerRequested.map fun _ => fetch :=
        if_pos ⟨hk, rfl⟩
      exact Keeps.refill (d := { c.outQueue.foldl call (reported c k false) with outQueue := [] })
        hcalls hlookup rfl

/-- One event serves at most the next block of the range. -/
theorem serving_push {e : WriteEvent} (he : e.isRequest = false) :
    Serving pack c e (Rollback.push (writeStep pack) c e) := by
  cases e with
  | queueWrite buff triggerSend callback =>
      show Serving pack c _ (c.queueWrite buff triggerSend callback)
      have hpushed : Keeps (c.pushWrite ⟨buff, callback⟩)
          (c.queueWrite buff triggerSend callback) := by
        unfold Connection.queueWrite
        dsimp only
        split
        · exact keeps_doQueueWrite _
        · exact .refl _
      exact .idle rfl hpushed.1 hpushed.2
  | enqueueSyncBlock fetch =>
      show Serving pack c _ (c.enqueueSyncBlock pack fetch)
      cases hrequested : c.peerRequested with
      | none =>
          rw [enqueueSyncBlock_idle hrequested]
          refine (Keeps.refl c).idle ?_ rfl
          rw [lookup, hrequested]
          rfl
      | some s =>
          obtain ⟨hqueued, hnext⟩ := @enqueueSyncBlock_next pack c s hrequested fetch
          have hown : ownWrite (.enqueueSyncBlock fetch) = [] := rfl
          refine .next s fetch hrequested ?_ ?_ hnext
          · rw [lookup, hrequested]
            rfl
          · rw [hqueued, hown, List.append_nil]
  | syncRequest fetch msg => cases he
  | writeDone fetch k failed =>
      by_cases hk : k < c.socket.outstanding.length
      · rw [Rollback.push_ok (if_pos hk)]
        exact serving_writeDone fetch hk
      · rw [Rollback.push_error (if_neg hk)]
        exact (Keeps.refl c).idle (if_neg fun h => hk h.1) rfl
  | flushQueues => exact Keeps.idle ⟨rfl, .inl rfl⟩ rfl rfl
  | close => exact (keeps_close c).idle rfl rfl
  | reconnect =>
      cases hopen : c.socket.isOpen with
      | true =>
          have hstep : writeStep pack c .reconnect = .error () := if_pos hopen
          rw [Rollback.push_error hstep]
          exact (Keeps.refl c).idle rfl rfl
      | false =>
          have hstep : writeStep pack c .reconnect =
              .ok { c with socket := { c.socket with isOpen := true }, connecting := true } :=
            if_neg (ne_true_of_eq_false hopen)
          rw [Rollback.push_ok hstep]
          exact Keeps.idle ⟨rfl, .inl rfl⟩ rfl rfl

/-! ### Runs without another request -/

/-- The events that come after a request, up to the next one. -/
def Unrequested (es : List WriteEvent) : Prop := ∀ e ∈ es, e.isRequest = false

theorem Unrequested.tail {e : WriteEvent} {es : List WriteEvent} (h : Unrequested (e :: es)) :
    Unrequested es := fun e' he' => h e' (List.mem_cons_of_mem e he')

/-- A connection that serves no request looks for no block. -/
theorem lookups_of_none {es : List WriteEvent} (hes : Unrequested es)
    (h : c.peerRequested = none) : lookups pack c es = [] ∧ enqueued pack c es = [] := by
  induction es generalizing c with
  | nil => exact ⟨rfl, rfl⟩
  | cons e es ih =>
      obtain ⟨hlookup, hqueued, hkeeps⟩ | ⟨s, fetch, hs, -, -, -⟩ :=
        @serving_push pack c e (hes e List.mem_cons_self)
      · rw [h, or_self] at hkeeps
        obtain ⟨hlookups, henqueued⟩ := ih hes.tail hkeeps
        rw [lookups, enqueued, hlookups, henqueued, hlookup, hqueued, ← List.length_append,
          List.drop_length]
        exact ⟨rfl, rfl⟩
      · rw [h] at hs
        cases hs

theorem blockWrites_cons (found : Option SignedBlock) (rest : List (Option SignedBlock)) :
    blockWrites pack (found :: rest).reduceOption =
      blockWrites pack found.toList ++ blockWrites pack rest.reduceOption := by
  cases found <;> rfl

/-- What is queued for a request are the blocks that are found from the next one of the range
on, and no more of them are looked for than the counter takes steps to the end. -/
theorem enqueued_of_some {es : List WriteEvent} (hes : Unrequested es) {s : SyncState}
    (h : c.peerRequested = some s) :
    enqueued pack c es =
        blockWrites pack (replies (s.last + 1) (lookups pack c es)).reduceOption ∧
      (lookups pack c es).length ≤ (s.endBlock - (s.last + 1)).toNat + 1 := by
  induction es generalizing c s with
  | nil => exact ⟨rfl, Nat.zero_le _⟩
  | cons e es ih =>
      have hnone : ∀ {c' : Connection}, c'.peerRequested = none →
          lookups pack c' es = [] ∧ enqueued pack c' es = [] := lookups_of_none hes.tail
      obtain ⟨hlookup, hqueued, hkept | hgone⟩ | ⟨s', fetch, hs, hlookup, hqueued, hkeeps⟩ :=
        @serving_push pack c e (hes e List.mem_cons_self)
      · rw [lookups, enqueued, hlookup, hqueued, ← List.length_append, List.drop_length]
        exact ih hes.tail (hkept.trans h)
      · obtain ⟨hlookups, henqueued⟩ := hnone hgone
        rw [lookups, enqueued, hlookup, hqueued, ← List.length_append, List.drop_length, hlookups,
          henqueued]
        exact ⟨rfl, Nat.zero_le _⟩
      · obtain rfl : s = s' := Option.some.inj (h.symm.trans hs)
        rw [lookups, enqueued, hlookup, hqueued, ← List.length_append, List.drop_left,
          Option.toList_some, List.singleton_append, replies, blockWrites_cons, List.length_cons]
        have hlast : (lookups pack (Rollback.push (writeStep pack) c e) es = [] ∧
              enqueued pack (Rollback.push (writeStep pack) c e) es = []) ∨
            s.last + 1 ≠ s.endBlock ∧ (Rollback.push (writeStep pack) c e).peerRequested =
              some { s with last := s.last + 1 } := by
          obtain hnext | hgone := hkeeps
          · rw [SyncState.next] at hnext
            by_cases hend : s.last + 1 = s.endBlock
            · rw [if_pos hend] at hnext
              exact .inl (hnone hnext)
            · rw [if_neg hend] at hnext
              exact .inr ⟨hend, hnext⟩
          · exact .inl (hnone hgone)
        obtain ⟨hlookups, henqueued⟩ | ⟨hend, hnext⟩ := hlast
        · rw [hlookups, henqueued]
          exact ⟨rfl, Nat.succ_le_succ (Nat.zero_le _)⟩
        · obtain ⟨henqueued, hlength⟩ := ih hes.tail hnext
          dsimp only at henqueued hlength
          rw [henqueued, ← toNat_sub_next hend]
          exact ⟨rfl, Nat.succ_le_succ hlength⟩

/-- A request is served as a refill of a connection that has taken it down. -/
theorem enqueued_request (fetch : UInt32 → Option SignedBlock) {msg : SyncRequestMessage}
    (hend : msg.endBlock ≠ 0) {es : List WriteEvent} (hes : Unrequested es) :
    enqueued pack c (.syncRequest fetch msg :: es) =
        blockWrites pack (replies msg.startBlock
          (lookups pack c (.syncRequest fetch msg :: es))).reduceOption ∧
      (lookups pack c (.syncRequest fetch msg :: es)).length ≤
        (msg.endBlock - msg.startBlock).toNat + 1 := by
  let d : Connection :=
    { c with peerRequested := some ⟨msg.startBlock, msg.endBlock, msg.startBlock - 1⟩ }
  have hpush : Rollback.push (writeStep pack) c (.syncRequest fetch msg) =
      Rollback.push (writeStep pack) d (.enqueueSyncBlock fetch) := if_neg hend
  have hlookup : lookup c (.syncRequest fetch msg) = lookup d (.enqueueSyncBlock fetch) :=
    if_neg hend
  have hlookups : lookups pack c (.syncRequest fetch msg :: es) =
      lookups pack d (.enqueueSyncBlock fetch :: es) := by
    rw [lookups, lookups, hpush, hlookup]
  have henqueued : enqueued pack c (.syncRequest fetch msg :: es) =
      enqueued pack d (.enqueueSyncBlock fetch :: es) := by
    rw [enqueued, enqueued, hpush]
    rfl
  have hes' : Unrequested (.enqueueSyncBlock fetch :: es) := by
    intro e he
    obtain rfl | he := List.mem_cons.mp he
    · rfl
    · exact hes e he
  rw [hlookups, henqueued]
  have hserved := @enqueued_of_some pack d _ hes' _ rfl
  rwa [UInt32.sub_add_cancel] at hserved

/-- What is sent for a request are the blocks of its range, each found at its turn, and it is
what is to be sent exactly if the range is not empty, or nothing of it is found, and no block
of it is found after one that is missing. -/
theorem syncRequest_serves_iff (pack : NetMessage → Bytes) (c : Connection)
    (fetch : UInt32 → Option SignedBlock) (msg : SyncRequestMessage) (es : List WriteEvent)
    (hend : msg.endBlock ≠ 0) (hes : Unrequested es)
    (hnumbered : Numbered (lookups pack c (.syncRequest fetch msg :: es))) :
    enqueued pack c (.syncRequest fetch msg :: es) =
        blockWrites pack (foundBlocks pack c fetch msg es).reduceOption ∧
      (Serves msg (foundBlocks pack c fetch msg es).reduceOption ↔
        (msg.startBlock ≤ msg.endBlock ∨ ∀ a ∈ foundBlocks pack c fetch msg es, a = none) ∧
          NoneMissed (foundBlocks pack c fetch msg es)) := by
  obtain ⟨henqueued, hlength⟩ := @enqueued_request pack c fetch msg hend es hes
  exact ⟨henqueued, serves_replies_iff hnumbered hlength⟩

/-- A chain that has grown to `head`. -/
def chainUpTo (head : UInt32) (num : UInt32) : Option SignedBlock :=
  if num = 0 ∨ head < num then none else some { id := 0, blockNum := num }

theorem numbered_chainUpTo (head : UInt32) (n : ℕ) :
    Numbered (List.replicate n (chainUpTo head)) := by
  intro fetch hfetch num sb hsb
  rw [(List.mem_replicate.mp hfetch).2, chainUpTo] at hsb
  split at hsb
  · cases hsb
  · rw [← Option.some.inj hsb]

def openedConnection : Connection := { socket := { isOpen := true } }

def twoWrites (head : UInt32) : List WriteEvent :=
  [.writeDone (chainUpTo head) 0 false, .writeDone (chainUpTo head) 0 false]

/-- The blocks 5, 6 and 7 are asked for, and two writes are done. -/
theorem syncRequest_serves_three :
    enqueued (fun _ => []) openedConnection (.syncRequest (chainUpTo 9) ⟨5, 7⟩ :: twoWrites 9) =
        blockWrites (fun _ => []) (foundBlocks (fun _ => []) openedConnection (chainUpTo 9) ⟨5, 7⟩
          (twoWrites 9)).reduceOption ∧
      (Serves ⟨5, 7⟩ (foundBlocks (fun _ => []) openedConnection (chainUpTo 9) ⟨5, 7⟩
          (twoWrites 9)).reduceOption ↔
        ((5 : UInt32) ≤ 7 ∨ ∀ a ∈ foundBlocks (fun _ => []) openedConnection (chainUpTo 9) ⟨5, 7⟩
          (twoWrites 9), a = none) ∧
          NoneMissed (foundBlocks (fun _ => []) openedConnection (chainUpTo 9) ⟨5, 7⟩
            (twoWrites 9))) := by
  refine syncRequest_serves_iff (fun _ => []) openedConnection (chainUpTo 9) ⟨5, 7⟩ (twoWrites 9)
    (by decide) ?_ (numbered_chainUpTo 9 3)
  intro e he
  simp only [twoWrites, List.mem_cons, List.not_mem_nil, or_false, or_self] at he
  rw [he]
  rfl

/-- A range that ends before it starts is served all the same. -/
theorem syncRequest_backwards :
    ¬ ∀ (pack : NetMessage → Bytes) (c : Connection) (fetch : UInt32 → Option SignedBlock)
      (msg : SyncRequestMessage) (es : List WriteEvent), msg.endBlock ≠ 0 → Unrequested es →
      Numbered (lookups pack c (.syncRequest fetch msg :: es)) →
      ∃ blocks, enqueued pack c (.syncRequest fetch msg :: es) = blockWrites pack blocks ∧
        Serves msg blocks := by
  intro h
  obtain ⟨blocks, hblocks, hserves⟩ := h (fun _ => []) openedConnection (chainUpTo 5)
    ⟨5, 3⟩ [] (by decide) (fun e he => (by cases he)) (numbered_chainUpTo 5 1)
  have hone : (blockWrites (fun _ => []) blocks).length = 1 := by
    rw [← hblocks]
    rfl
  have hnone : blocks.length ≤ 0 := hserves.length
  rw [blockWrites, List.length_map] at hone
  omega

end Xidata.Net
