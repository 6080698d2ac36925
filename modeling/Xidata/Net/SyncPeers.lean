import Xidata.Library.RingScan
import Xidata.Net.SyncProgress

/-!
The peers of the sync manager: which of them are known to have a block that the node is to
catch up with, and which one is asked for blocks.  A catch-up looks at the first peer of the
set only, a block that arrives strikes off the peer that has sent it, whichever has reached
it, and the one peer of a node is not asked while another one is still taken for the source.
-/

namespace Xidata.Net

/-! ### What is queued for a peer -/

namespace Connection

variable {pack : NetMessage → Bytes} {c : Connection}

/-- A message as it is queued. -/
def framed (pack : NetMessage → Bytes) (m : NetMessage) : QueuedWrite :=
  ⟨ByteCode.littleEndian 4 (pack m).length ++ pack m, .sent m.closeAfterSend⟩

theorem doQueueWrite_eq (c : Connection) :
    c.doQueueWrite = c ∨ c.doQueueWrite = c.handOver ∨ c.doQueueWrite = c.close := by
  unfold doQueueWrite
  split
  · exact .inl rfl
  · split
    · exact .inr (.inl rfl)
    · exact .inr (.inr rfl)

@[simp] theorem doQueueWrite_forkHead (c : Connection) : c.doQueueWrite.forkHead = c.forkHead := by
  obtain heq | heq | heq := c.doQueueWrite_eq <;> rw [heq] <;> rfl

@[simp] theorem doQueueWrite_forkHeadNum (c : Connection) :
    c.doQueueWrite.forkHeadNum = c.forkHeadNum := by
  obtain heq | heq | heq := c.doQueueWrite_eq <;> rw [heq] <;> rfl

@[simp] theorem doQueueWrite_queued (c : Connection) :
    c.doQueueWrite.log.queued = c.log.queued := by
  obtain heq | heq | heq := c.doQueueWrite_eq <;> rw [heq] <;> rfl

theorem enqueue_eq (pack : NetMessage → Bytes) (c : Connection) (m : NetMessage)
    (triggerSend : Bool) :
    c.enqueue pack m triggerSend =
      if c.outQueue = [] ∧ triggerSend then (c.pushWrite (framed pack m)).doQueueWrite
      else c.pushWrite (framed pack m) := rfl

@[simp] theorem enqueue_forkHead (m : NetMessage) (triggerSend : Bool) :
    (c.enqueue pack m triggerSend).forkHead = c.forkHead := by
  rw [enqueue_eq]
  split
  · rw [doQueueWrite_forkHead]
    rfl
  · rfl

@[simp] theorem enqueue_forkHeadNum (m : NetMessage) (triggerSend : Bool) :
    (c.enqueue pack m triggerSend).forkHeadNum = c.forkHeadNum := by
  rw [enqueue_eq]
  split
  · rw [doQueueWrite_forkHeadNum]
    rfl
  · rfl

@[simp] theorem enqueue_queued (m : NetMessage) (triggerSend : Bool) :
    (c.enqueue pack m triggerSend).log.queued = c.log.queued ++ [framed pack m] := by
  rw [enqueue_eq]
  split
  · rw [doQueueWrite_queued]
    rfl
  · rfl

/-- A queued message closes a connection without a socket, if no write is in progress. -/
theorem enqueue_current (hout : c.outQueue = []) (hopen : c.socket.isOpen = false)
    (m : NetMessage) : (c.enqueue pack m true).current = false := by
  have hclose : c.enqueue pack m true = (c.pushWrite (framed pack m)).close := by
    rw [enqueue_eq, if_pos ⟨hout, rfl⟩, doQueueWrite, if_neg (by simp [pushWrite, hout]),
      if_neg (by simp [pushWrite, hopen])]
  rw [hclose]
  rfl

end Connection

namespace Node

variable {cfg : Config} {ext : Externals} {n : Node} {c d : ConnectionId}

theorem requestRange_conn {s : ConnectionId} (hne : d ≠ s) :
    (n.requestRange ext s).conn d = n.conn d := by
  unfold requestRange
  dsimp only
  split
  · exact Function.update_of_ne hne _ _
  · rfl

/-- Blocks are requested of a current connection only. -/
theorem requestNextChunk_conn (hd : n.current d = false) (conn : Option ConnectionId) :
    (n.requestNextChunk ext conn).conn d = n.conn d := by
  obtain ⟨-, heq⟩ | ⟨-, s, hsource, heq⟩ | ⟨-, -, heq⟩ := requestNextChunk_cases ext n conn
  · rw [heq]
  · have hne : d ≠ s := by
      rintro rfl
      rw [(current_of_filter hsource).2] at hd
      cases hd
    rw [heq, requestRange_conn hne]
    rfl
  · rw [heq]
    rfl

theorem resetLibNum_conn (hd : n.current d = false) (c : ConnectionId) :
    (n.resetLibNum ext c).conn d = n.conn d := by
  -- The source is only forgotten before.
  obtain ⟨m, hm, heq⟩ : ∃ m : Node, m.conn = n.conn ∧ n.resetLibNum ext c =
      if m.current c then
        { m with sync := { m.sync with
          syncKnownLibNum := max m.sync.syncKnownLibNum
            (m.conn c).lastHandshakeRecv.lastIrreversibleBlockNum.toNat } }
      else if some c = m.sync.source then
        { m with sync := { m.sync with syncLastRequestedNum := 0 } }.requestNextChunk ext none
      else m := by
    refine ⟨if n.sync.state = .inSync then n.withSource none else n, ?_, rfl⟩
    split <;> rfl
  rw [heq, ← hm]
  split
  · rfl
  · split
    · apply requestNextChunk_conn
      rw [Node.current, hm]
      exact hd
    · rfl

/-- A message for a connection changes it as it would alone. -/
theorem enqueue_conn_self (n : Node) (c : ConnectionId) (m : NetMessage) :
    (n.enqueue ext c m).conn c = (n.conn c).enqueue ext.pack m true := by
  unfold Node.enqueue
  dsimp only
  split
  · rename_i hdead
    rw [resetLibNum_conn, update_conn_self]
    rw [Node.current, update_conn_self]
    exact Connection.enqueue_current hdead.1 hdead.2 m
  · exact update_conn_self n c _

/-! ### Fork heads that are known -/

/-- A peer has the block as its fork head, or one that is higher. -/
def HasForkHead (n : Node) (num : UInt32) (id : BlockId) (cc : ConnectionId) : Prop :=
  (n.conn cc).forkHead = id ∨ num < (n.conn cc).forkHeadNum

instance (n : Node) (num : UInt32) (id : BlockId) (cc : ConnectionId) :
    Decidable (n.HasForkHead num id cc) :=
  inferInstanceAs (Decidable (_ ∨ _))

/-- The request that asks for all blocks up to the head of the peer. -/
def catchUpRequest : NetMessage := .request { reqBlocks := { mode := .catchUp } }

/-- The request that asks for nothing. -/
def noRequest : NetMessage := .request {}

/-- What a notice of a block is to lead to: as long as no peer has it, the block is recorded as
the fork head of `c`, which is asked to catch up unless irreversible blocks are still being
fetched; otherwise nothing is asked for and nothing recorded. -/
structure CatchesUp (ext : Externals) (n : Node) (c : ConnectionId) (num : UInt32) (id : BlockId)
    (n' : Node) : Prop where
  unknown : (∀ cc ∈ n.connections, ¬ n.HasForkHead num id cc) →
    (n'.conn c).forkHead = id ∧ (n'.conn c).forkHeadNum = num ∧
      (n'.conn c).log.queued = (n.conn c).log.queued ++
        if n.sync.state = .libCatchup then [] else [Connection.framed ext.pack catchUpRequest]
  known : (∃ cc ∈ n.connections, n.HasForkHead num id cc) →
    (n'.conn c).forkHead = 0 ∧ (n'.conn c).forkHeadNum = 0 ∧
      (n'.conn c).log.queued = (n.conn c).log.queued ++ [Connection.framed ext.pack noRequest]

theorem verifyCatchup_known {num : UInt32} {id : BlockId}
    (h : ∃ cc ∈ n.connections.head?, n.HasForkHead num id cc) :
    ((n.verifyCatchup ext c num id).conn c).forkHead = 0 ∧
      ((n.verifyCatchup ext c num id).conn c).forkHeadNum = 0 ∧
      ((n.verifyCatchup ext c num id).conn c).log.queued =
        (n.conn c).log.queued ++ [Connection.framed ext.pack noRequest] := by
  have hknown : (n.connections.head?.any fun cc =>
      (n.conn cc).forkHead = id || num < (n.conn cc).forkHeadNum) = true := by
    obtain ⟨cc, hcc, hhas⟩ := h
    rw [Option.mem_def.mp hcc]
    simpa [HasForkHead] using hhas
  rw [verifyCatchup, if_pos hknown, enqueue_conn_self]
  simp [noRequest]

theorem verifyCatchup_unknown {num : UInt32} {id : BlockId}
    (h : ¬ ∃ cc ∈ n.connections.head?, n.HasForkHead num id cc) :
    ((n.verifyCatchup ext c num id).conn c).forkHead = id ∧
      ((n.verifyCatchup ext c num id).conn c).forkHeadNum = num ∧
      ((n.verifyCatchup ext c num id).conn c).log.queued = (n.conn c).log.queued ++
        if n.sync.state = .libCatchup then [] else
          [Connection.framed ext.pack catchUpRequest] := by
  have hunknown : ¬ (n.connections.head?.any fun cc =>
      (n.conn cc).forkHead = id || num < (n.conn cc).forkHeadNum) = true := by
    cases hhead : n.connections.head? with
    | none => simp
    | some cc =>
        have hnot : ¬ n.HasForkHead num id cc := fun hhas => h ⟨cc, hhead, hhas⟩
        simpa [HasForkHead] using hnot
  rw [verifyCatchup, if_neg hunknown]
  by_cases hlib : n.sync.state = .libCatchup
  · simp [hlib]
  · simp [hlib, enqueue_conn_self, setState, catchUpRequest]

/-- A catch-up is decided as it is to be if and only if the first peer of the set has the
fork head or no peer has it. -/
theorem verifyCatchup_catchesUp_iff (hpack : ext.pack catchUpRequest ≠ ext.pack noRequest)
    (num : UInt32) (id : BlockId) :
    CatchesUp ext n c num id (n.verifyCatchup ext c num id) ↔
      (∃ cc ∈ n.connections.head?, n.HasForkHead num id cc) ∨
        ∀ cc ∈ n.connections, ¬ n.HasForkHead num id cc := by
  by_cases hfirst : ∃ cc ∈ n.connections.head?, n.HasForkHead num id cc
  · refine iff_of_true ⟨fun hnone => ?_, fun _ => verifyCatchup_known hfirst⟩ (.inl hfirst)
    obtain ⟨cc, hcc, hhas⟩ := hfirst
    exact absurd hhas (hnone cc (List.mem_of_head? hcc))
  · rw [or_iff_right hfirst]
    constructor
    · intro h cc hcc hhas
      -- The first peer does not know the block, so that it is asked for.
      have hsent := (h.known ⟨cc, hcc, hhas⟩).2.2
      rw [(verifyCatchup_unknown hfirst).2.2] at hsent
      have hrequest := List.append_cancel_left hsent
      split at hrequest
      · cases hrequest
      · have hframe := (QueuedWrite.mk.inj (List.cons.inj hrequest).1).1
        exact hpack (List.append_inj_right' hframe (by
          have hlength := congrArg List.length hframe
          simp only [List.length_append, ByteCode.length_littleEndian] at hlength
          omega))
    · intro hnone
      refine ⟨fun _ => verifyCatchup_unknown hfirst, ?_⟩
      rintro ⟨cc, hcc, hhas⟩
      exact absurd hhas (hnone cc hcc)

def packMode : IdListModes → ℕ
  | .none => 0
  | .catchUp => 1
  | .lastIrrCatchUp => 2
  | .normal => 3
  | .other value => value.toNat

def packSelectIds (s : SelectIds) : Bytes :=
  ByteCode.littleEndian 4 (packMode s.mode) ++ ByteCode.littleEndian 4 s.pending.toNat ++
    UInt8.ofNat s.ids.length ::
      s.ids.flatMap fun id => (ByteCode.littleEndian 32 id.toNat).reverse

/-- Requests as they are serialized. -/
def requestExternals : Externals :=
  { blankExternals with
    pack
      | .request msg => 5 :: packSelectIds msg.reqTrx ++ packSelectIds msg.reqBlocks
      | _ => [] }

/-- A node with peers `1` and `2`, of which the second one has block 7 as its fork head. -/
def forkedNode (state : Stages) : Node where
  connections := [1, 2]
  conn c := { Connection.ofSocket with
    forkHead := if c = 2 then 7 else 0
    forkHeadNum := if c = 2 then 7 else 0 }
  sync := { state := state }

theorem verifyCatchup_catchesUp_unknown :
    CatchesUp requestExternals (forkedNode .inSync) 1 9 9
      ((forkedNode .inSync).verifyCatchup requestExternals 1 9 9) :=
  (verifyCatchup_catchesUp_iff (by decide) 9 9).mpr (.inr (by decide))

/-- The first peer is asked for a block that the second one has. -/
theorem verifyCatchup_first_only :
    ¬ ∀ (ext : Externals) (n : Node) (c : ConnectionId) (num : UInt32) (id : BlockId),
      ext.pack catchUpRequest ≠ ext.pack noRequest →
      CatchesUp ext n c num id (n.verifyCatchup ext c num id) := by
  intro h
  have hknown := (h requestExternals (forkedNode .inSync) 1 7 7 (by decide)).known
    ⟨2, by decide, by decide⟩
  exact absurd hknown.1 (by decide)

/-! ### A block during a catch-up -/

/-- A peer has reached its fork head with the block. -/
def Reached (n : Node) (id : BlockId) (num : UInt32) (d : ConnectionId) : Prop :=
  (n.conn d).forkHead ≠ 0 ∧ ((n.conn d).forkHead = id ∨ (n.conn d).forkHeadNum < num)

instance (n : Node) (id : BlockId) (num : UInt32) (d : ConnectionId) :
    Decidable (n.Reached id num d) :=
  inferInstanceAs (Decidable (_ ∧ _))

def clearForkHead (c : Connection) : Connection := { c with forkHead := 0, forkHeadNum := 0 }

/-- What a block is to do during a head catch-up: the peers that have reached their fork heads
lose them, the others stay as they are, and the catch-up goes on as long as a fork head is
left. -/
structure StrikesOff (n : Node) (id : BlockId) (num : UInt32) (n' : Node) : Prop where
  reached : ∀ d ∈ n.connections, n.Reached id num d → n'.conn d = clearForkHead (n.conn d)
  others : ∀ d, d ∉ n.connections ∨ ¬ n.Reached id num d → n'.conn d = n.conn d
  state : n'.sync.state = .headCatchup ↔ ∃ d ∈ n.connections, (n'.conn d).forkHead ≠ 0

/-- One turn of the walk: what the peer `cp` has reached is struck off `c`. -/
def visit (c : ConnectionId) (id : BlockId) (num : UInt32) (n : Node) (cp : ConnectionId) : Node :=
  if (n.conn cp).forkHead = 0 then n
  else if (n.conn cp).forkHead = id ∨ (n.conn cp).forkHeadNum < num then n.update c clearForkHead
  else n.setState .headCatchup

theorem recvHeadBlock_eq (id : BlockId) (num : UInt32) :
    n.recvHeadBlock c id num =
      n.connections.foldl (visit c id num) ((n.setState .inSync).withSource none) := rfl

theorem visit_conn_of_ne {id : BlockId} {num : UInt32} {cp : ConnectionId} (hd : d ≠ c) :
    (n.visit c id num cp).conn d = n.conn d := by
  unfold visit
  split
  · rfl
  · split
    · exact update_conn_of_ne hd
    · rfl

theorem visits_conn_of_ne {id : BlockId} {num : UInt32} (cs : List ConnectionId) (hd : d ≠ c) :
    (cs.foldl (visit c id num) n).conn d = n.conn d := by
  induction cs generalizing n with
  | nil => rfl
  | cons cp cs ih => rw [List.foldl_cons, ih, visit_conn_of_ne hd]

theorem reached_update {id : BlockId} {num : UInt32} :
    (n.update c clearForkHead).Reached id num d ↔ d ≠ c ∧ n.Reached id num d := by
  by_cases hd : d = c
  · subst hd
    simp [Reached, clearForkHead]
  · simp [Reached, update_conn_of_ne hd, hd]

/-- Where no other peer has reached its fork head, the walk strikes off what `c` has reached,
and the catch-up goes on if it meets a fork head that is not reached. -/
theorem visits_spec {id : BlockId} {num : UInt32} (cs : List ConnectionId)
    (hothers : ∀ d ∈ cs, d ≠ c → ¬ n.Reached id num d) :
    (cs.foldl (visit c id num) n).conn c =
        (if c ∈ cs ∧ n.Reached id num c then clearForkHead (n.conn c) else n.conn c) ∧
      ((cs.foldl (visit c id num) n).sync.state = .headCatchup ↔
        n.sync.state = .headCatchup ∨
          ∃ d ∈ cs, (n.conn d).forkHead ≠ 0 ∧ ¬ n.Reached id num d) := by
  induction cs generalizing n with
  | nil => simp
  | cons cp cs ih =>
      rw [List.forall_mem_cons] at hothers
      obtain ⟨hcp, hcs⟩ := hothers
      rw [List.foldl_cons]
      by_cases hhead : (n.conn cp).forkHead = 0
      · have hvisit : n.visit c id num cp = n := if_pos hhead
        have hnot : ¬ n.Reached id num cp := fun h => h.1 hhead
        rw [hvisit]
        obtain ⟨hconn, hstate⟩ := ih hcs
        refine ⟨hconn.trans (if_congr ?_ rfl rfl), hstate.trans (or_congr_right ?_)⟩
        · rw [List.mem_cons]
          grind
        · simp [hhead]
      · by_cases hreached : n.Reached id num cp
        · -- Only `c` itself has reached its fork head.
          have hself : cp = c := by
            by_contra hne
            exact hcp hne hreached
          subst hself
          have hvisit : n.visit cp id num cp = n.update cp clearForkHead := by
            rw [visit, if_neg hhead, if_pos hreached.2]
          rw [hvisit]
          obtain ⟨hconn, hstate⟩ := ih fun d hd hne h => hcs d hd hne (reached_update.mp h).2
          refine ⟨?_, hstate.trans (or_congr_right ?_)⟩
          · rw [hconn, if_neg fun h => (reached_update.mp h.2).1 rfl, update_conn_self,
              if_pos ⟨List.mem_cons_self, hreached⟩]
          · simp only [reached_update, List.exists_mem_cons_iff, hreached, not_true, and_false,
              false_or]
            refine exists_congr fun d => and_congr_right fun hd => ?_
            by_cases hne : d = cp
            · subst hne
              simp [clearForkHead, hreached]
            · simp [update_conn_of_ne hne, hne]
        · have hvisit : n.visit c id num cp = n.setState .headCatchup := by
            rw [visit, if_neg hhead, if_neg fun h => hreached ⟨hhead, h⟩]
          rw [hvisit]
          obtain ⟨hconn, hstate⟩ := @ih (n.setState .headCatchup) hcs
          refine ⟨hconn.trans (if_congr ?_ rfl rfl), iff_of_true (hstate.mpr (.inl rfl)) ?_⟩
          · have hsame : (n.setState .headCatchup).Reached id num c ↔ n.Reached id num c := Iff.rfl
            rw [List.mem_cons, hsame]
            grind
          · exact .inr ⟨cp, List.mem_cons_self, hhead, hreached⟩

/-- A block during a head catch-up does what it is to do if and only if no other peer than its
sender has reached its fork head with it. -/
theorem recvBlock_strikesOff_iff (hstate : n.sync.state = .headCatchup) (id : BlockId)
    (num : UInt32) :
    StrikesOff n id num (n.recvBlock cfg ext c id num) ↔
      ∀ d ∈ n.connections, d ≠ c → ¬ n.Reached id num d := by
  have hwalk : n.recvBlock cfg ext c id num =
      n.connections.foldl (visit c id num) ((n.setState .inSync).withSource none) := by
    rw [recvBlock, hstate]
    exact recvHeadBlock_eq id num
  rw [hwalk]
  have hother : ∀ d, d ≠ c →
      (n.connections.foldl (visit c id num) ((n.setState .inSync).withSource none)).conn d =
        n.conn d := fun d hd => visits_conn_of_ne n.connections hd
  constructor
  · intro h d hd hne hreached
    have hcleared := h.reached d hd hreached
    rw [hother d hne] at hcleared
    exact hreached.1 (congrArg Connection.forkHead hcleared)
  · intro hothers
    obtain ⟨hconn, hgoes⟩ :=
      @visits_spec ((n.setState .inSync).withSource none) c id num n.connections hothers
    have hself : ∀ d ∈ n.connections, n.Reached id num d → d = c := by
      intro d hd hreached
      by_contra hne
      exact hothers d hd hne hreached
    refine ⟨fun d hd hreached => ?_, fun d hd => ?_, hgoes.trans ?_⟩
    · obtain rfl := hself d hd hreached
      exact hconn.trans (if_pos ⟨hd, hreached⟩)
    · by_cases hne : d = c
      · subst hne
        exact hconn.trans (if_neg (by tauto))
      · exact hother d hne
    · have hsync : ((n.setState .inSync).withSource none).sync.state ≠ .headCatchup := by
        intro h
        cases h
      rw [or_iff_right hsync]
      refine exists_congr fun d => and_congr_right fun hd => ?_
      by_cases hne : d = c
      · subst hne
        rw [hconn]
        by_cases hreached : n.Reached id num d
        · rw [if_pos ⟨hd, hreached⟩]
          exact iff_of_false (fun h => h.2 hreached) fun h => h rfl
        · rw [if_neg fun h => hreached h.2]
          exact and_iff_left hreached
      · rw [hother d hne]
        exact and_iff_left (hothers d hd hne)

theorem recvBlock_strikesOff_sender :
    StrikesOff (forkedNode .headCatchup) 7 7
      ((forkedNode .headCatchup).recvBlock {} requestExternals 2 7 7) :=
  (recvBlock_strikesOff_iff rfl 7 7).mpr (by decide)

/-- The second peer keeps its fork head when the first one sends that block. -/
theorem recvBlock_other_sender :
    ¬ ∀ (cfg : Config) (ext : Externals) (n : Node) (c : ConnectionId) (id : BlockId)
      (num : UInt32), n.sync.state = .headCatchup →
      StrikesOff n id num (n.recvBlock cfg ext c id num) := by
  intro h
  have hcleared := (h {} requestExternals (forkedNode .headCatchup) 1 7 7 rfl).reached 2
    (by decide) (by decide)
  exact absurd (congrArg Connection.forkHead hcleared) (by decide)

/-! ### The next source -/

/-- The selection of `request_next_chunk` as it walks the set, an iterator being a position.  It
has no result where the walk does not end within the fuel or leaves the set. -/
def walkSources (n : Node) (conn : Option ConnectionId) (fuel : ℕ) :
    Option (Option ConnectionId) :=
  match conn.filter n.current with
  | some c => some (some c)
  | none =>
    if n.connections.length = 1 then some (n.sync.source.or n.connections.head?)
    else
      let fin := n.connections.length
      let cend := n.sync.source.map n.connections.idxOf
      -- A source that is not found has been closed, and the walk starts at the first peer.
      let source := if cend = some fin then none else n.sync.source
      let cptr := match cend with
        | none => 0
        | some pos => if pos = fin then 0 else if pos + 1 = fin then 0 else pos + 1
      (RingScan.scan n.current n.connections cptr fuel cptr).map fun found => found.or source

/-- Where the walk starts: after the previous source, if it is still in the set. -/
def ringStart (n : Node) : ℕ :=
  match n.sync.source.filter (· ∈ n.connections) with
  | some s => n.connections.idxOf s + 1
  | none => 0

theorem selectSource_eq_ring {conn : Option ConnectionId} (h : conn.filter n.current = none)
    (hlength : n.connections.length ≠ 1) :
    n.selectSource conn = ((n.connections.rotate n.ringStart).find? n.current).or
      (n.sync.source.filter (· ∈ n.connections)) := by
  rw [selectSource, h]
  exact if_neg hlength

/-- The walk ends, and it chooses the source that is asked next. -/
theorem walkSources_eq (hne : n.connections ≠ []) (conn : Option ConnectionId) {fuel : ℕ}
    (hfuel : n.connections.length ≤ fuel) :
    n.walkSources conn fuel = some (n.selectSource conn) := by
  have hpos : 0 < n.connections.length := List.length_pos_iff.mpr hne
  cases hconn : conn.filter n.current with
  | some c => rw [walkSources, selectSource, hconn]
  | none =>
      by_cases hlength : n.connections.length = 1
      · rw [walkSources, selectSource, hconn]
        dsimp only
        rw [if_pos hlength, if_pos hlength]
      · rw [selectSource_eq_ring hconn hlength, walkSources, hconn]
        dsimp only
        rw [if_neg hlength]
        rw [ringStart]
        cases hsource : n.sync.source with
        | none =>
            simp only [Option.map_none, Option.filter_none, reduceCtorEq, if_false]
            rw [RingScan.scan_eq hpos hfuel]
            rfl
        | some s =>
            by_cases hmem : s ∈ n.connections
            · have hlt : n.connections.idxOf s < n.connections.length :=
                List.idxOf_lt_length_of_mem hmem
              simp only [Option.map_some, Option.some.injEq, if_neg hlt.ne, Option.filter_some,
                hmem, decide_true, if_true]
              by_cases hlast : n.connections.idxOf s + 1 = n.connections.length
              · rw [if_pos hlast, hlast, List.rotate_length, RingScan.scan_eq hpos hfuel,
                  List.rotate_zero]
                rfl
              · rw [if_neg hlast, RingScan.scan_eq (by omega) hfuel]
                rfl
            · have heq : n.connections.idxOf s = n.connections.length := List.idxOf_eq_length hmem
              simp only [Option.map_some, heq, if_true, Option.filter_some, hmem, decide_false,
                Bool.false_eq_true, if_false]
              rw [RingScan.scan_eq hpos hfuel]
              rfl

/-- What the selection is to come to: the connection that is proposed, if it is current, and
otherwise the next current one after the previous source, if there is one. -/
structure Selects (n : Node) (conn source : Option ConnectionId) : Prop where
  proposed : ∀ c, conn.filter n.current = some c → source = some c
  next : conn.filter n.current = none → (∃ d ∈ n.connections, n.current d = true) →
    ∃ before d after, n.connections.rotate n.ringStart = before ++ d :: after ∧
      (∀ e ∈ before, n.current e = false) ∧ n.current d = true ∧ source = some d

/-- The only connection is current and no other one is proposed that is, but the source is
still a connection that has left the set. -/
def StaleSource (n : Node) (conn : Option ConnectionId) : Prop :=
  conn.filter n.current = none ∧ ∃ d, n.connections = [d] ∧ n.current d = true ∧
    ∃ s, n.sync.source = some s ∧ s ≠ d

theorem selects_ring {conn : Option ConnectionId} (hconn : conn.filter n.current = none)
    (hlength : n.connections.length ≠ 1) : Selects n conn (n.selectSource conn) := by
  refine ⟨fun c hc => ?_, fun _ hexists => ?_⟩
  · rw [hconn] at hc
    cases hc
  · rw [selectSource_eq_ring hconn hlength]
    cases hfind : (n.connections.rotate n.ringStart).find? n.current with
    | none => exact absurd hexists (find_current_rotate.mp hfind)
    | some d =>
        obtain ⟨hd, before, after, hsplit, hbefore⟩ := List.find?_eq_some_iff_append.mp hfind
        refine ⟨before, d, after, hsplit, fun e he => ?_, hd, rfl⟩
        simpa using hbefore e he

/-- A single connection is the source unless there is one already. -/
theorem selects_single {conn : Option ConnectionId} (hconn : conn.filter n.current = none)
    {d : ConnectionId} (hsingle : n.connections = [d]) :
    Selects n conn (n.selectSource conn) ↔
      (n.current d = true → n.sync.source.or (some d) = some d) := by
  have hselect : n.selectSource conn = n.sync.source.or (some d) := by
    rw [selectSource, hconn, hsingle]
    rfl
  rw [hselect]
  constructor
  · intro h hd
    obtain ⟨before, e, after, hsplit, -, -, hsource⟩ :=
      h.next hconn ⟨d, by rw [hsingle]; exact List.mem_cons_self, hd⟩
    rw [hsingle, List.rotate_singleton] at hsplit
    have hmem : e ∈ [d] := by
      rw [hsplit]
      exact List.mem_append_cons_self
    rw [hsource, List.mem_singleton.mp hmem]
  · intro h
    refine ⟨fun c hc => ?_, ?_⟩
    · rw [hconn] at hc
      cases hc
    · rintro - ⟨e, he, hcurrent⟩
      rw [hsingle, List.mem_singleton] at he
      subst he
      refine ⟨[], e, [], ?_, fun _ h => (by cases h), hcurrent, h hcurrent⟩
      rw [hsingle, List.rotate_singleton]
      rfl

/-- The selection ends, and it comes to what it is to come to if and only if no source that
has left the set stands in for the only connection. -/
theorem walkSources_selects_iff (hne : n.connections ≠ []) (conn : Option ConnectionId) :
    ∃ source, (∀ fuel, n.connections.length ≤ fuel → n.walkSources conn fuel = some source) ∧
      (Selects n conn source ↔ ¬ n.StaleSource conn) := by
  refine ⟨n.selectSource conn, fun fuel hfuel => walkSources_eq hne conn hfuel, ?_⟩
  cases hconn : conn.filter n.current with
  | some c =>
      have hselect : n.selectSource conn = some c := by rw [selectSource, hconn]
      refine iff_of_true ⟨fun c' hc' => ?_, fun hnone => ?_⟩ fun hstale => ?_
      · rw [hselect, ← hc', hconn]
      · rw [hconn] at hnone
        cases hnone
      · have hnone := hconn.symm.trans hstale.1
        cases hnone
  | none =>
      by_cases hlength : n.connections.length = 1
      · obtain ⟨d, hsingle⟩ := List.length_eq_one_iff.mp hlength
        rw [selects_single hconn hsingle]
        constructor
        · rintro h ⟨-, e, he, hcurrent, s, hs, hother⟩
          cases List.cons.inj (hsingle.symm.trans he) with
          | intro heq _ =>
              subst heq
              have hsource := h hcurrent
              rw [hs, Option.some_or] at hsource
              exact hother (Option.some.inj hsource)
        · intro h hcurrent
          cases hs : n.sync.source with
          | none => rfl
          | some s =>
              rw [Option.some_or]
              by_contra hother
              exact h ⟨hconn, d, hsingle, hcurrent, s, hs, fun heq => hother (congrArg some heq)⟩
      · refine iff_of_true (selects_ring hconn hlength) ?_
        rintro ⟨-, d, hsingle, -⟩
        exact hlength (by rw [hsingle]; rfl)

/-- A node whose peers are all current, and what it takes for the source. -/
def sourcedNode (connections : List ConnectionId) (source : ConnectionId) : Node where
  connections := connections
  conn c := { socket := { isOpen := decide (c ∈ connections) } }
  sync := { source := some source }

/-- After the second of three peers it is the third one's turn. -/
theorem walkSources_selects_third :
    ∃ source, (∀ fuel, 3 ≤ fuel → (sourcedNode [1, 2, 3] 2).walkSources none fuel = some source) ∧
      (Selects (sourcedNode [1, 2, 3] 2) none source ↔
        ¬ (sourcedNode [1, 2, 3] 2).StaleSource none) :=
  @walkSources_selects_iff (sourcedNode [1, 2, 3] 2) (by decide) none

/-- The one peer of the node is not asked. -/
theorem walkSources_stale :
    (sourcedNode [1] 2).walkSources none 1 = some (some 2) ∧
      ¬ ∀ (n : Node) (conn : Option ConnectionId), n.connections ≠ [] →
        (∀ s, n.sync.source = some s → s ∈ n.connections ∨ n.current s = false) →
        ∃ fuel source, n.walkSources conn fuel = some source ∧ Selects n conn source := by
  refine ⟨rfl, fun h => ?_⟩
  obtain ⟨fuel, source, hwalk, hselects⟩ := h (sourcedNode [1] 2) none (by decide)
    (by intro s hs; cases hs; exact .inr rfl)
  have hother : some 2 = source := Option.some.inj hwalk
  subst hother
  obtain ⟨before, d, after, hsplit, -, hd, hsource⟩ := hselects.next rfl ⟨1, by decide, rfl⟩
  cases hsource
  exact absurd hd (by decide)

end Node

end Xidata.Net
