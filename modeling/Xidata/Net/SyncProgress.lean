import Mathlib.Data.List.Rotate
import Xidata.Library.Rollback
import Xidata.Net.SyncManager

/-!
A node that catches up waits for blocks it has requested: the block it expects next is in
the range that was requested last.  One step can break this in two ways only: by a start
that aims at no block above the own last irreversible one, and by a last requested block
that leaves the head below it.
-/

namespace Xidata.Net

namespace Node

variable {cfg : Config} {ext : Externals} {n : Node} {c : ConnectionId}

/-! ### What a request does -/

/-- A current source still owes blocks. -/
def Owes (n : Node) : Prop :=
  n.chain.forkDbHeadBlockNum < n.sync.syncLastRequestedNum ∧ n.sync.source.any n.current

def withSource (n : Node) (source : Option ConnectionId) : Node :=
  { n with sync := { n.sync with source := source } }

/-- The node gives up. -/
def unsynced (n : Node) : Node :=
  { n with sync := { n.sync with
    syncKnownLibNum := n.chain.lastIrreversibleBlockNum
    syncLastRequestedNum := 0
    state := .inSync } }

theorem requestNextChunk_cases (ext : Externals) (n : Node) (conn : Option ConnectionId) :
    n.Owes ∧ n.requestNextChunk ext conn = n ∨
      ¬ n.Owes ∧ (∃ s, (n.selectSource conn).filter n.current = some s ∧
        n.requestNextChunk ext conn = (n.withSource (n.selectSource conn)).requestRange ext s) ∨
      ¬ n.Owes ∧ (n.selectSource conn).filter n.current = none ∧
        n.requestNextChunk ext conn = (n.withSource (n.selectSource conn)).unsynced := by
  by_cases howes : n.Owes
  · exact .inl ⟨howes, if_pos howes⟩
  · rw [Node.requestNextChunk, if_neg (show ¬ (_ ∧ _) from howes)]
    dsimp only
    split
    next s hsource => exact .inr (.inl ⟨howes, s, hsource, rfl⟩)
    next hsource => exact .inr (.inr ⟨howes, hsource, rfl⟩)

/-- The last block of the range that is to be requested. -/
def rangeEnd (s : SyncManager) : ℕ :=
  min (s.syncNextExpectedNum + s.syncReqSpan - 1) s.syncKnownLibNum

theorem requestRange_sync (ext : Externals) (n : Node) (s : ConnectionId) :
    (n.requestRange ext s).sync =
      if n.sync.syncLastRequestedNum ≠ n.sync.syncKnownLibNum ∧ 0 < rangeEnd n.sync ∧
          n.sync.syncNextExpectedNum ≤ rangeEnd n.sync then
        { n.sync with syncLastRequestedNum := rangeEnd n.sync }
      else n.sync :=
  apply_ite Node.sync _ _ _

/-! ### The invariant -/

/-- A request whose range contains the block expected next is outstanding. -/
def WaitsForRequest (s : SyncManager) : Prop :=
  s.state = .libCatchup →
    s.syncNextExpectedNum ≤ s.syncLastRequestedNum ∧ s.syncLastRequestedNum ≤ s.syncKnownLibNum

/-- What the numbers of the sync manager satisfy in any case. -/
structure Numbered (s : SyncManager) : Prop where
  known : s.syncLastRequestedNum ≤ s.syncKnownLibNum
  next : 1 ≤ s.syncNextExpectedNum
  span : 1 ≤ s.syncReqSpan

structure Requested (s : SyncManager) : Prop extends Numbered s where
  waits : s.state = .libCatchup → s.syncNextExpectedNum ≤ s.syncLastRequestedNum

theorem Requested.waitsForRequest {s : SyncManager} (h : Requested s) : WaitsForRequest s :=
  fun hstate => ⟨h.waits hstate, h.known⟩

/-- The expected block is at or below the known irreversible one, so that a request of it
is possible. -/
theorem Requested.next_le_known {s : SyncManager} (h : Requested s) (hstate : s.state = .libCatchup) :
    s.syncNextExpectedNum ≤ s.syncKnownLibNum :=
  (h.waits hstate).trans h.known

theorem Numbered.requestRange (h : Numbered n.sync)
    (hnext : n.sync.state = .libCatchup → n.sync.syncNextExpectedNum ≤ n.sync.syncKnownLibNum)
    (s : ConnectionId) : Requested (n.requestRange ext s).sync := by
  have hspan : 1 ≤ n.sync.syncReqSpan := h.span
  have hone : 1 ≤ n.sync.syncNextExpectedNum := h.next
  have hknown : n.sync.syncLastRequestedNum ≤ n.sync.syncKnownLibNum := h.known
  rw [requestRange_sync]
  split
  · rename_i hrange
    exact ⟨⟨min_le_right _ _, hone, hspan⟩, fun _ => hrange.2.2⟩
  · rename_i hrange
    refine ⟨h, fun hstate => ?_⟩
    -- Nothing is requested only where everything known has been.
    have hle : n.sync.syncNextExpectedNum ≤ n.sync.syncKnownLibNum := hnext hstate
    rw [rangeEnd] at hrange
    omega

theorem Numbered.unsynced (h : Numbered n.sync) : Requested n.unsynced.sync :=
  ⟨⟨Nat.zero_le _, h.next, h.span⟩, fun hstate => by cases hstate⟩

theorem Numbered.requestNextChunk (h : Numbered n.sync)
    (hnext : n.sync.state = .libCatchup → n.sync.syncNextExpectedNum ≤ n.sync.syncKnownLibNum)
    (howes : n.sync.state = .libCatchup → n.Owes →
      n.sync.syncNextExpectedNum ≤ n.sync.syncLastRequestedNum)
    (conn : Option ConnectionId) : Requested (n.requestNextChunk ext conn).sync := by
  have hnumbered : Numbered (n.withSource (n.selectSource conn)).sync := ⟨h.known, h.next, h.span⟩
  obtain ⟨hn, heq⟩ | ⟨-, s, -, heq⟩ | ⟨-, -, heq⟩ := requestNextChunk_cases ext n conn <;> rw [heq]
  · exact ⟨h, fun hstate => howes hstate hn⟩
  · exact hnumbered.requestRange hnext s
  · exact hnumbered.unsynced

/-- The last request does not count any more, and another one is made. -/
theorem Numbered.requestAgain (h : Numbered n.sync)
    (hnext : n.sync.state = .libCatchup → n.sync.syncNextExpectedNum ≤ n.sync.syncKnownLibNum)
    (conn : Option ConnectionId) :
    Requested ({ n with sync := { n.sync with syncLastRequestedNum := 0 } }.requestNextChunk ext
      conn).sync :=
  Numbered.requestNextChunk (n := { n with sync := { n.sync with syncLastRequestedNum := 0 } })
    ⟨Nat.zero_le _, h.next, h.span⟩ hnext (fun _ hn => absurd hn.1 (Nat.not_lt_zero _)) conn

/-! ### Closing and queueing -/

theorem Requested.resetLibNum (h : Requested n.sync) (c : ConnectionId) :
    Requested (n.resetLibNum ext c).sync := by
  unfold Node.resetLibNum
  dsimp only
  generalize hm : (if n.sync.state = .inSync then
    { n with sync := { n.sync with source := none } } else n) = m
  have hm' : Requested m.sync := by
    rw [← hm]
    split
    · exact ⟨⟨h.known, h.next, h.span⟩, h.waits⟩
    · exact h
  split
  · exact ⟨⟨hm'.known.trans (le_max_left _ _), hm'.next, hm'.span⟩, hm'.waits⟩
  · split
    · exact hm'.requestAgain hm'.next_le_known none
    · exact hm'

theorem Requested.close (h : Requested n.sync) (c : ConnectionId) :
    Requested (n.close ext c).sync :=
  Requested.resetLibNum (n := n.update c Connection.close) h c

theorem Requested.enqueue (h : Requested n.sync) (c : ConnectionId) (m : NetMessage) :
    Requested (n.enqueue ext c m).sync := by
  unfold Node.enqueue
  dsimp only
  split
  · exact Requested.resetLibNum (n := n.update c _) h c
  · exact h

theorem Requested.cancelSync (h : Requested n.sync) (c : ConnectionId) (reason : GoAwayReason) :
    Requested (n.cancelSync ext c reason).sync := by
  unfold Node.cancelSync
  dsimp only
  split
  · exact Requested.enqueue (n := (n.update c _).update c _) h c _
  · exact Requested.enqueue (n := n.update c _) h c _

theorem Requested.sendHandshakes (h : Requested n.sync) :
    Requested (n.sendHandshakes cfg ext).sync := by
  unfold Node.sendHandshakes
  generalize n.connections = cs
  induction cs generalizing n with
  | nil => exact h
  | cons c cs ih =>
      rw [List.foldl_cons]
      apply ih
      split
      · exact Requested.enqueue (n := n.update c _) h c _
      · exact h

theorem Requested.inSync (h : Requested n.sync) : Requested (n.setState .inSync).sync :=
  ⟨⟨h.known, h.next, h.span⟩, fun hstate => by cases hstate⟩

theorem Requested.headCatchup (h : Requested n.sync) : Requested (n.setState .headCatchup).sync :=
  ⟨⟨h.known, h.next, h.span⟩, fun hstate => by cases hstate⟩

/-! ### Sources -/

/-- A request that names no current connection finds a source. -/
def HasSource (n : Node) : Prop :=
  if n.connections.length = 1 then (n.sync.source.or n.connections.head?).any n.current = true
  else ∃ d ∈ n.connections, n.current d = true

/-- A request that names `c` finds a source. -/
def Usable (n : Node) (c : ConnectionId) : Prop := n.current c = true ∨ n.HasSource

theorem current_of_filter {source : Option ConnectionId} {s : ConnectionId}
    (h : source.filter n.current = some s) : source = some s ∧ n.current s = true :=
  Option.filter_eq_some_iff.mp h

/-- Every connection is looked at, wherever the walk starts. -/
theorem find_current_rotate {start : ℕ} :
    (n.connections.rotate start).find? n.current = none ↔
      ¬ ∃ d ∈ n.connections, n.current d = true := by
  simp only [List.find?_eq_none, List.mem_rotate, not_exists, not_and]

theorem selectSource_of_current (h : n.current c) : n.selectSource (some c) = some c := by
  rw [selectSource, Option.filter_some, if_pos h]

/-- The choice when the connection that is supplied, if any, is not current. -/
theorem selectSource_of_not_current {conn : Option ConnectionId}
    (h : conn.filter n.current = none) :
    ((n.selectSource conn).filter n.current).isSome = true ↔ n.HasSource := by
  rw [selectSource, h, HasSource]
  dsimp only
  split
  · cases n.sync.source.or n.connections.head? with
    | none => simp
    | some s => simp [Option.filter_some]
  · generalize hfind : List.find? _ _ = found
    cases found with
    | some s =>
        have hs : n.current s = true := List.find?_some hfind
        have hmem : s ∈ n.connections := List.mem_rotate.mp (List.mem_of_find?_eq_some hfind)
        simp only [Option.some_or, Option.filter_some, hs, if_true, Option.isSome_some, true_iff]
        exact ⟨s, hmem, hs⟩
    | none =>
        have hnone : ¬ ∃ d ∈ n.connections, n.current d = true := find_current_rotate.mp hfind
        rw [Option.none_or, iff_false_right hnone]
        intro hsome
        -- An old source is kept only if it is still in the set, and it is not current.
        obtain ⟨s, hs⟩ := Option.isSome_iff_exists.mp hsome
        obtain ⟨hsource, hcurrent⟩ := current_of_filter hs
        obtain ⟨-, hmem⟩ := Option.filter_eq_some_iff.mp hsource
        exact hnone ⟨s, of_decide_eq_true hmem, hcurrent⟩

/-- A selection that is forgotten does not make a source. -/
theorem hasSource_of_selected
    (h : (n.withSource (n.selectSource none)).unsynced.HasSource) : n.HasSource := by
  unfold HasSource at h ⊢
  by_cases hone : n.connections.length = 1
  · have hselect : n.selectSource none = n.sync.source.or n.connections.head? := if_pos hone
    have hany : ((n.selectSource none).or n.connections.head?).any n.current = true :=
      (if_pos hone).mp h
    rw [hselect, Option.or_assoc, Option.or_self] at hany
    exact (if_pos hone).mpr hany
  · have hexists : ∃ d ∈ n.connections, n.current d = true := (if_neg hone).mp h
    exact (if_neg hone).mpr hexists

theorem selectSource_usable : ((n.selectSource (some c)).filter n.current).isSome ↔ n.Usable c := by
  cases hcurrent : n.current c with
  | true =>
      rw [selectSource_of_current hcurrent, Option.filter_some, if_pos hcurrent]
      exact ⟨fun _ => .inl hcurrent, fun _ => rfl⟩
  | false =>
      have hnone : (some c).filter n.current = none := by
        rw [Option.filter_some, hcurrent, if_neg Bool.false_ne_true]
      rw [selectSource_of_not_current hnone, Usable, hcurrent, or_iff_right Bool.false_ne_true]

/-! ### Starting -/

/-- A start from the synchronized state that finds a source, and of which not everything
known has been requested, aims at a block above the own last irreversible one. -/
def StartsAhead (n : Node) (c : ConnectionId) (target : ℕ) : Prop :=
  n.sync.state = .inSync → n.sync.syncLastRequestedNum < max n.sync.syncKnownLibNum target →
    n.Usable c → n.chain.lastIrreversibleBlockNum < max n.sync.syncKnownLibNum target

/-- The node that asks for blocks from the one after its last irreversible block on. -/
def catching (n : Node) (target : ℕ) : Node :=
  { n with sync := { n.sync with
    syncKnownLibNum := max n.sync.syncKnownLibNum target
    state := .libCatchup
    syncNextExpectedNum := n.chain.lastIrreversibleBlockNum + 1 } }

def withKnown (n : Node) (target : ℕ) : Node :=
  { n with sync := { n.sync with syncKnownLibNum := max n.sync.syncKnownLibNum target } }

theorem startSync_cases (ext : Externals) (n : Node) (c : ConnectionId) (target : ℕ) :
    (n.withKnown target).syncRequired = false ∧ n.startSync ext c target = n.withKnown target ∨
      (n.withKnown target).syncRequired = true ∧ n.sync.state = .inSync ∧
        n.startSync ext c target = (n.catching target).requestNextChunk ext (some c) ∨
      n.sync.state ≠ .inSync ∧
        n.startSync ext c target = (n.withKnown target).requestNextChunk ext (some c) := by
  unfold startSync
  dsimp only
  split
  · rename_i hrequired
    by_cases hstate : n.sync.state = .inSync
    · refine .inr (.inl ⟨hrequired, hstate, ?_⟩)
      rw [if_pos hstate]
      rfl
    · refine .inr (.inr ⟨hstate, ?_⟩)
      rw [if_neg hstate]
      rfl
  · rename_i hrequired
    exact .inl ⟨Bool.eq_false_iff.mpr hrequired, rfl⟩

theorem Requested.withKnown (h : Requested n.sync) (target : ℕ) :
    Requested (n.withKnown target).sync :=
  ⟨⟨h.known.trans (le_max_left _ _), h.next, h.span⟩, h.waits⟩

theorem syncRequired_iff {target : ℕ} :
    (n.withKnown target).syncRequired = true ↔
      n.sync.syncLastRequestedNum < max n.sync.syncKnownLibNum target ∨
        n.chain.forkDbHeadBlockNum < n.sync.syncLastRequestedNum :=
  decide_eq_true_iff

theorem Requested.catching (h : Requested n.sync) (target : ℕ) :
    Numbered (n.catching target).sync :=
  ⟨h.known.trans (le_max_left _ _), Nat.le_add_left 1 _, h.span⟩

theorem Requested.startSync (h : Requested n.sync) {target : ℕ}
    (hstart : n.StartsAhead c target) : Requested (n.startSync ext c target).sync := by
  have hlib : n.chain.lastIrreversibleBlockNum ≤ n.chain.forkDbHeadBlockNum :=
    n.chain.irreversible_le_head
  have hknown := h.withKnown target
  obtain ⟨-, heq⟩ | ⟨hrequired, hstate, heq⟩ | ⟨-, heq⟩ := startSync_cases ext n c target <;>
    rw [heq]
  · exact hknown
  · have hnumbered : Numbered (n.catching target).sync := h.catching target
    obtain ⟨howes, heq⟩ | ⟨-, s, hs, heq⟩ | ⟨-, -, heq⟩ :=
      requestNextChunk_cases ext (n.catching target) (some c) <;> rw [heq]
    · -- What is owed lies above the head.
      exact ⟨hnumbered, fun _ => Nat.succ_le_of_lt (hlib.trans_lt howes.1)⟩
    · have husable : n.Usable c :=
        selectSource_usable.mp (Option.isSome_iff_exists.mpr ⟨s, hs⟩)
      have hsource : Numbered
          ((n.catching target).withSource ((n.catching target).selectSource (some c))).sync :=
        ⟨hnumbered.known, hnumbered.next, hnumbered.span⟩
      refine hsource.requestRange (fun _ => ?_) s
      obtain hlt | hhead := syncRequired_iff.mp hrequired
      · exact Nat.succ_le_of_lt (hstart hstate hlt husable)
      · exact Nat.succ_le_of_lt ((hlib.trans_lt hhead).trans_le hnumbered.known)
    · exact Numbered.unsynced ⟨hnumbered.known, hnumbered.next, hnumbered.span⟩
  · exact hknown.requestNextChunk hknown.next_le_known (fun hstate _ => hknown.waits hstate) _

/-- A start that does not aim ahead leaves the node waiting for nothing. -/
theorem startSync_stuck {target : ℕ} (hstart : ¬ n.StartsAhead c target) :
    ¬ WaitsForRequest (n.startSync ext c target).sync := by
  have hlib : n.chain.lastIrreversibleBlockNum ≤ n.chain.forkDbHeadBlockNum :=
    n.chain.irreversible_le_head
  simp only [StartsAhead, Classical.not_imp, not_lt] at hstart
  obtain ⟨hstate, hlast, husable, hbelow⟩ := hstart
  obtain ⟨hnot, -⟩ | ⟨-, -, heq⟩ | ⟨hne, -⟩ := startSync_cases ext n c target
  · rw [syncRequired_iff.mpr (.inl hlast)] at hnot
    cases hnot
  · rw [heq]
    obtain ⟨howes, -⟩ | ⟨-, s, -, heq⟩ | ⟨-, hnone, -⟩ :=
      requestNextChunk_cases ext (n.catching target) (some c)
    · have hhead : n.chain.forkDbHeadBlockNum < n.sync.syncLastRequestedNum := howes.1
      omega
    · intro hwaits
      rw [heq, requestRange_sync, if_neg] at hwaits
      · have hnext : n.chain.lastIrreversibleBlockNum + 1 ≤ n.sync.syncLastRequestedNum :=
          (hwaits rfl).1
        omega
      · rintro ⟨-, -, hrange⟩
        have hstop : n.chain.lastIrreversibleBlockNum + 1 ≤ max n.sync.syncKnownLibNum target :=
          hrange.trans (min_le_right _ _)
        omega
    · have hsome := (selectSource_usable (n := n.catching target)).mpr husable
      rw [hnone] at hsome
      cases hsome
  · exact absurd hstate hne

/-! ### Receiving blocks -/

/-- When the last requested block has arrived, not the last known one, and no current source
owes more, the head is not below it. -/
def ChunkApplied (n : Node) (num : UInt32) : Prop :=
  n.sync.state = .libCatchup → num.toNat = n.sync.syncNextExpectedNum →
    num.toNat = n.sync.syncLastRequestedNum → num.toNat ≠ n.sync.syncKnownLibNum →
      ¬ n.Owes

def expecting (n : Node) (num : ℕ) : Node :=
  { n with sync := { n.sync with syncNextExpectedNum := num } }

theorem Requested.recvHeadBlock (h : Requested n.sync) (id : BlockId) (num : UInt32) :
    Requested (n.recvHeadBlock c id num).sync := by
  unfold Node.recvHeadBlock
  have hstart : Requested ((n.setState .inSync).withSource none).sync :=
    ⟨⟨h.known, h.next, h.span⟩, fun hstate => by cases hstate⟩
  revert hstart
  show Requested ((n.setState .inSync).withSource none).sync →
    Requested (List.foldl _ ((n.setState .inSync).withSource none)
      ((n.setState .inSync).withSource none).connections).sync
  generalize ((n.setState .inSync).withSource none).connections = cs
  generalize (n.setState .inSync).withSource none = m
  intro hm
  induction cs generalizing m with
  | nil => exact hm
  | cons cp cs ih =>
      rw [List.foldl_cons]
      apply ih
      split
      · exact hm
      · split
        · exact hm
        · exact hm.headCatchup

theorem Requested.recvBlock (h : Requested n.sync) {id : BlockId} {num : UInt32}
    (happlied : n.ChunkApplied num) : Requested (n.recvBlock cfg ext c id num).sync := by
  unfold Node.recvBlock
  cases hstate : n.sync.state with
  | libCatchup =>
      have hwaits : n.sync.syncNextExpectedNum ≤ n.sync.syncLastRequestedNum := h.waits hstate
      have hknown : n.sync.syncLastRequestedNum ≤ n.sync.syncKnownLibNum := h.known
      dsimp only
      split
      · exact h.close c
      · rename_i hnum
        rw [not_not] at hnum
        have hnumbered : Numbered (n.expecting (num.toNat + 1)).sync :=
          ⟨h.known, Nat.le_add_left 1 _, h.span⟩
        split
        · refine Requested.sendHandshakes ⟨⟨h.known, Nat.le_add_left 1 _, h.span⟩, fun hs => ?_⟩
          cases hs
        · rename_i hlast
          split
          · rename_i hchunk
            have howes : ¬ n.Owes := happlied hstate hnum hchunk hlast
            refine hnumbered.requestNextChunk (fun _ => ?_) (fun _ hn => absurd hn howes) none
            show num.toNat + 1 ≤ n.sync.syncKnownLibNum
            have hne : num.toNat ≠ n.sync.syncKnownLibNum := hlast
            have heq : num.toNat = n.sync.syncLastRequestedNum := hchunk
            omega
          · rename_i hchunk
            refine ⟨hnumbered, fun _ => ?_⟩
            show num.toNat + 1 ≤ n.sync.syncLastRequestedNum
            have hne : num.toNat ≠ n.sync.syncLastRequestedNum := hchunk
            omega
  | headCatchup => exact h.recvHeadBlock id num
  | inSync => exact h

/-- A block that leaves more to be requested, while no request is made because the head has
not reached it, leaves the node waiting for nothing. -/
theorem recvBlock_stuck {id : BlockId} {num : UInt32} (happlied : ¬ n.ChunkApplied num) :
    ¬ WaitsForRequest (n.recvBlock cfg ext c id num).sync := by
  simp only [ChunkApplied, Classical.not_imp, not_not] at happlied
  obtain ⟨hstate, hnum, hchunk, hlast, howes⟩ := happlied
  have heq : n.recvBlock cfg ext c id num = n.expecting (num.toNat + 1) := by
    unfold Node.recvBlock
    rw [hstate]
    dsimp only
    rw [if_neg (not_not.mpr hnum), if_neg hlast, if_pos hchunk]
    exact if_pos howes
  rw [heq]
  intro hwaits
  have hnext : num.toNat + 1 ≤ n.sync.syncLastRequestedNum := (hwaits hstate).1
  omega

/-! ### Notices and handshakes -/

/-- What the sync manager knows when a notice of `c` with this irreversible block starts. -/
def knownWith (n : Node) (c : ConnectionId) (pending : UInt32) : ℕ :=
  if n.current c then max n.sync.syncKnownLibNum pending.toNat else n.sync.syncKnownLibNum

/-- A notice that starts the synchronization aims at a block above the own last
irreversible one. -/
def NoticeAhead (n : Node) (c : ConnectionId) (msg : NoticeMessage) : Prop :=
  msg.knownBlocks.mode ≠ .catchUp → n.sync.state = .inSync →
    n.sync.syncLastRequestedNum <
      max (n.knownWith c msg.knownTrx.pending) msg.knownBlocks.pending.toNat →
    (n.current c = true ∨ ∃ d ∈ n.connections, n.current d = true) →
    n.chain.lastIrreversibleBlockNum <
      max (n.knownWith c msg.knownTrx.pending) msg.knownBlocks.pending.toNat

theorem resetLibNum_inSync (ext : Externals) (c : ConnectionId) (hstate : n.sync.state = .inSync) :
    n.resetLibNum ext c = { n with sync := { n.sync with
      source := none
      syncKnownLibNum :=
        n.knownWith c (n.conn c).lastHandshakeRecv.lastIrreversibleBlockNum } } := by
  unfold Node.resetLibNum knownWith
  rw [if_pos hstate]
  by_cases hcurrent : n.current c = true
  · rw [if_pos hcurrent]
    exact if_pos hcurrent
  · rw [if_neg hcurrent]
    exact if_neg hcurrent

/-- A connection that is lost, the source of a node that catches up, puts it in sync only if
no source is left. -/
theorem resetLibNum_unusable (ext : Externals) (hstate : n.sync.state ≠ .inSync)
    (hreset : (n.resetLibNum ext c).sync.state = .inSync) :
    ¬ (n.resetLibNum ext c).Usable c := by
  unfold Node.resetLibNum at hreset ⊢
  rw [if_neg hstate] at hreset ⊢
  dsimp only at hreset ⊢
  split at hreset
  · exact absurd hreset hstate
  · rename_i hcurrent
    rw [if_neg hcurrent]
    split at hreset
    · rename_i hsource
      rw [if_pos hsource]
      generalize hm : ({ n with sync := { n.sync with syncLastRequestedNum := 0 } } : Node) = m
        at hreset ⊢
      obtain ⟨howes, -⟩ | ⟨-, s, -, heq⟩ | ⟨-, hnone, heq⟩ := requestNextChunk_cases ext m none
      · rw [← hm] at howes
        exact absurd howes.1 (Nat.not_lt_zero _)
      · rw [heq, requestRange_sync, apply_ite SyncManager.state, ite_self, ← hm] at hreset
        exact absurd hreset hstate
      · -- The list is the same, and the source is the one that was selected.
        have hiff : ((m.selectSource none).filter m.current).isSome = true ↔ m.HasSource :=
          selectSource_of_not_current rfl
        have hno : ¬ m.HasSource := fun hhas => by
          rw [← hiff, hnone] at hhas
          cases hhas
        rw [heq]
        rintro (hc | hhas)
        · rw [← hm] at hc
          exact hcurrent hc
        · exact hno (hasSource_of_selected hhas)
    · exact absurd hreset hstate

/-- The node that has taken the irreversible block out of a notice. -/
def noticed (n : Node) (c : ConnectionId) (pending : UInt32) : Node :=
  n.update c fun c => { c with
    lastHandshakeRecv := { c.lastHandshakeRecv with lastIrreversibleBlockNum := pending } }

theorem current_noticed (n : Node) (c : ConnectionId) (pending : UInt32) :
    (n.noticed c pending).current = n.current := by
  funext d
  unfold Node.current
  by_cases hd : d = c
  · subst hd
    rw [noticed, update_conn_self]
    rfl
  · rw [noticed, update_conn_of_ne hd]

/-- With no old source a list of one connection is no special case. -/
theorem hasSource_of_no_source (h : n.sync.source = none) :
    n.HasSource ↔ ∃ d ∈ n.connections, n.current d = true := by
  unfold HasSource
  rw [h, Option.none_or]
  split
  · rename_i hone
    obtain ⟨d, hd⟩ := List.length_eq_one_iff.mp hone
    rw [hd]
    simp
  · exact Iff.rfl

theorem recvNotice_startsAhead (ext : Externals) {msg : NoticeMessage}
    (hstate : n.sync.state = .inSync) (hmode : msg.knownBlocks.mode ≠ .catchUp) :
    ((n.noticed c msg.knownTrx.pending).resetLibNum ext c).StartsAhead c
      msg.knownBlocks.pending.toNat ↔ n.NoticeAhead c msg := by
  have hreset := resetLibNum_inSync (n := n.noticed c msg.knownTrx.pending) ext c hstate
  have hpending : ((n.noticed c msg.knownTrx.pending).conn c).lastHandshakeRecv.lastIrreversibleBlockNum
      = msg.knownTrx.pending := by
    rw [noticed, update_conn_self]
  rw [hpending] at hreset
  have hknown : (n.noticed c msg.knownTrx.pending).knownWith c msg.knownTrx.pending =
      n.knownWith c msg.knownTrx.pending := by
    rw [knownWith, current_noticed]
    rfl
  rw [hknown] at hreset
  have husable : ((n.noticed c msg.knownTrx.pending).resetLibNum ext c).Usable c ↔
      n.current c = true ∨ ∃ d ∈ n.connections, n.current d = true := by
    rw [hreset, Usable, hasSource_of_no_source rfl]
    show (n.noticed c msg.knownTrx.pending).current c = true ∨
      (∃ d ∈ n.connections, (n.noticed c msg.knownTrx.pending).current d = true) ↔ _
    rw [current_noticed]
  rw [StartsAhead, NoticeAhead, husable, hreset]
  exact ⟨fun h _ => h, fun h => h hmode⟩

theorem recvNotice_eq {msg : NoticeMessage} (hmode : msg.knownBlocks.mode ≠ .catchUp) :
    n.recvNotice ext c msg = ((n.noticed c msg.knownTrx.pending).resetLibNum ext c).startSync ext c
      msg.knownBlocks.pending.toNat := if_neg hmode

theorem Requested.verifyCatchup (h : Requested n.sync) (num : UInt32) (id : BlockId) :
    Requested (n.verifyCatchup ext c num id).sync := by
  unfold Node.verifyCatchup
  dsimp only
  split
  · exact Requested.enqueue (n := n.update c _) h c _
  · split
    · exact h
    · exact Requested.enqueue (Requested.headCatchup (n := n.update c _) h) c _

theorem Requested.recvNotice (h : Requested n.sync) {msg : NoticeMessage}
    (hahead : n.NoticeAhead c msg) : Requested (n.recvNotice ext c msg).sync := by
  by_cases hmode : msg.knownBlocks.mode = .catchUp
  · rw [Node.recvNotice, if_pos hmode]
    cases msg.knownBlocks.ids.getLast? with
    | none => exact h
    | some id => exact h.verifyCatchup _ id
  · rw [recvNotice_eq hmode]
    have hnoticed : Requested (n.noticed c msg.knownTrx.pending).sync := h
    refine (hnoticed.resetLibNum c).startSync ?_
    by_cases hstate : n.sync.state = .inSync
    · exact (recvNotice_startsAhead ext hstate hmode).mpr hahead
    · exact fun hreset _ husable => absurd husable
        (resetLibNum_unusable (n := n.noticed c _) ext hstate hreset)

theorem recvNotice_stuck {msg : NoticeMessage} (hahead : ¬ n.NoticeAhead c msg) :
    ¬ WaitsForRequest (n.recvNotice ext c msg).sync := by
  have hstate : n.sync.state = .inSync := by
    by_contra hne
    exact hahead fun _ hstate => absurd hstate hne
  have hmode : msg.knownBlocks.mode ≠ .catchUp := fun heq => hahead fun hne => absurd heq hne
  rw [recvNotice_eq hmode]
  rw [← recvNotice_startsAhead ext hstate hmode] at hahead
  exact startSync_stuck hahead

/-- A handshake starts the synchronization only towards a block above the head. -/
theorem Requested.recvHandshake (h : Requested n.sync) (msg : HandshakeMessage) :
    Requested (n.recvHandshake ext c msg).sync := by
  unfold Node.recvHandshake
  dsimp only
  have hreset : Requested ((n.resetLibNum ext c).update c fun c => { c with syncing := false }).sync :=
    h.resetLibNum c
  revert hreset
  generalize (n.resetLibNum ext c).update c _ = m
  intro hm
  split
  · exact hm.enqueue c _
  · split
    · rename_i hhead
      split
      · refine hm.startSync fun _ _ _ => ?_
        exact (m.chain.irreversible_le_head.trans_lt hhead).trans_le (le_max_right _ _)
      · exact hm
    · split
      · show Requested (ite _ (m.enqueue ext c _) m).sync
        split
        · exact hm.enqueue c _
        · exact hm
      · split
        · exact hm.verifyCatchup _ _
        · show Requested (ite _ (m.enqueue ext c _) m).sync
          split
          · exact hm.enqueue c _
          · exact hm

/-! ### Lost sources -/

theorem Requested.reassignFetch (h : Requested n.sync) (reason : GoAwayReason) :
    Requested (n.reassignFetch ext c reason).sync := by
  unfold Node.reassignFetch
  split
  · have hcancel : Requested (n.cancelSync ext c reason).sync := h.cancelSync c reason
    exact hcancel.requestAgain hcancel.next_le_known none
  · exact h

theorem close_of_no_source (h : n.sync.source = none) : (n.close ext c).sync = n.sync := by
  have hclosed : (n.update c Connection.close).current c = false := by
    rw [Node.current, update_conn_self]
    rfl
  have hsame : { n.sync with source := none } = n.sync := by
    rw [← h]
  rw [Node.close]
  by_cases hstate : n.sync.state = .inSync
  · rw [resetLibNum_inSync (n := n.update c Connection.close) ext c hstate, knownWith, hclosed]
    exact hsame
  · have hsource : ¬ some c = n.sync.source := by
      rw [h]
      exact Option.some_ne_none c
    unfold Node.resetLibNum
    dsimp only
    rw [if_neg (show ¬ (n.update c Connection.close).sync.state = .inSync from hstate), hclosed,
      if_neg Bool.false_ne_true,
      if_neg (show ¬ some c = (n.update c Connection.close).sync.source from hsource)]
    rfl

theorem Requested.rejectedBlock (h : Requested n.sync) :
    Requested (n.rejectedBlock cfg ext c).sync := by
  unfold Node.rejectedBlock
  split
  · apply Requested.sendHandshakes
    show Requested { (Node.close ext _ c).sync with state := .inSync }
    rw [close_of_no_source rfl]
    exact ⟨⟨Nat.zero_le _, h.next, h.span⟩, fun hstate => by cases hstate⟩
  · exact h

end Node

/-! ### Runs -/

inductive SyncEvent
  | startSync (c : ConnectionId) (target : ℕ)
  | recvBlock (c : ConnectionId) (id : BlockId) (num : UInt32)
  | recvHandshake (c : ConnectionId) (msg : HandshakeMessage)
  | recvNotice (c : ConnectionId) (msg : NoticeMessage)
  | reassignFetch (c : ConnectionId) (reason : GoAwayReason)
  | rejectedBlock (c : ConnectionId)
  | close (c : ConnectionId)
  /-- Whatever is not the sync manager becomes as in `w`: the chain, the set of connections
  and each of them. -/
  | outside (w : Node)

section Run

variable (cfg : Config) (ext : Externals)

def syncStep (n : Node) : SyncEvent → Except Unit Node
  | .startSync c target => .ok (n.startSync ext c target)
  | .recvBlock c id num => .ok (n.recvBlock cfg ext c id num)
  | .recvHandshake c msg => .ok (n.recvHandshake ext c msg)
  | .recvNotice c msg => .ok (n.recvNotice ext c msg)
  | .reassignFetch c reason => .ok (n.reassignFetch ext c reason)
  | .rejectedBlock c => .ok (n.rejectedBlock cfg ext c)
  | .close c => .ok (n.close ext c)
  | .outside w => .ok { w with sync := n.sync }

end Run

/-- The step keeps the node waiting for blocks it has requested. -/
def SyncEvent.KeepsRequest (n : Node) : SyncEvent → Prop
  | .startSync c target => n.StartsAhead c target
  | .recvBlock _ _ num => n.ChunkApplied num
  | .recvNotice c msg => n.NoticeAhead c msg
  | _ => True

variable {cfg : Config} {ext : Externals} {n : Node}

open Node (Requested WaitsForRequest)

theorem requested_step {n' : Node} {e : SyncEvent} (h : Requested n.sync)
    (he : e.KeepsRequest n) (hstep : syncStep cfg ext n e = .ok n') : Requested n'.sync := by
  cases e with
  | startSync c target =>
      cases hstep
      exact h.startSync he
  | recvBlock c id num =>
      cases hstep
      exact h.recvBlock he
  | recvHandshake c msg =>
      cases hstep
      exact h.recvHandshake msg
  | recvNotice c msg =>
      cases hstep
      exact h.recvNotice he
  | reassignFetch c reason =>
      cases hstep
      exact h.reassignFetch reason
  | rejectedBlock c =>
      cases hstep
      exact h.rejectedBlock
  | close c =>
      cases hstep
      exact h.close c
  | outside w =>
      cases hstep
      exact h

theorem stuck_step {n' : Node} {e : SyncEvent} (he : ¬ e.KeepsRequest n)
    (hstep : syncStep cfg ext n e = .ok n') : ¬ WaitsForRequest n'.sync := by
  cases e with
  | startSync c target =>
      cases hstep
      exact Node.startSync_stuck he
  | recvBlock c id num =>
      cases hstep
      exact Node.recvBlock_stuck he
  | recvNotice c msg =>
      cases hstep
      exact Node.recvNotice_stuck he
  | recvHandshake c msg => exact absurd trivial he
  | reassignFetch c reason => exact absurd trivial he
  | rejectedBlock c => exact absurd trivial he
  | close c => exact absurd trivial he
  | outside w => exact absurd trivial he

/-- From the start on, the node waits only for blocks it has requested if and only if it is
never made to catch up with less than it has, nor left below a chunk it has received. -/
theorem sync_waits_iff {span : ℕ} (hsync : n.sync = { syncReqSpan := span }) (hspan : 1 ≤ span)
    (es : List SyncEvent) :
    (∀ t ∈ Rollback.trace (syncStep cfg ext) n es, WaitsForRequest t.sync) ↔
      Rollback.Along (syncStep cfg ext) (fun t e _ => e.KeepsRequest t) n es := by
  have hstart : Requested n.sync := by
    rw [hsync]
    exact ⟨⟨le_rfl, le_rfl, hspan⟩, fun hstate => by cases hstate⟩
  exact Rollback.trace_iff_along (Q := fun t => WaitsForRequest t.sync)
    (P := fun t (e : SyncEvent) => e.KeepsRequest t) (fun _ h => h.waitsForRequest)
    (fun _ _ _ h hstep he => requested_step h he hstep)
    (fun _ _ _ _ hstep hwaits => not_not.mp fun he => stuck_step he hstep hwaits) hstart

def blankExternals : Externals where
  pack _ := []
  hash _ := 0
  str _ := ""
  signCompact _ _ := {}
  recover _ _ := none
  isProducerKey _ := false

/-- A node with one current peer, which has blocks up to `head`. -/
def peeredNode (head lib : ℕ) (h : lib ≤ head) : Node where
  connections := [1]
  conn _ := { socket := { isOpen := true }, protocolVersion := protoExplicitSync }
  chain := {
    forkDbHeadBlockNum := head
    lastIrreversibleBlockNum := lib
    irreversible_le_head := h }

/-- The peer says that it is at block 130, with 120 irreversible. -/
def aheadNotice : NoticeMessage where
  knownTrx := { mode := .lastIrrCatchUp, pending := 120 }
  knownBlocks := { mode := .lastIrrCatchUp, pending := 130 }

/-- A node at its first block asks for the next hundred ones, again when they do not come. -/
theorem sync_waits_fresh :
    let es : List SyncEvent := [.recvNotice 1 aheadNotice, .reassignFetch 1 .benignOther]
    let step := syncStep {} blankExternals
    (∀ t ∈ Rollback.trace step (peeredNode 1 1 le_rfl) es, WaitsForRequest t.sync) ∧
      (Rollback.run step (peeredNode 1 1 le_rfl) es).sync =
        { syncKnownLibNum := 130, syncLastRequestedNum := 101, syncNextExpectedNum := 2,
          source := some 1, state := .libCatchup } := by
  refine ⟨(sync_waits_iff rfl (by decide) _).mpr ⟨fun _ _ => ?_, fun _ _ => trivial, trivial⟩, rfl⟩
  exact fun _ _ _ _ => by decide

/-- A node that has more than the peer is made to catch up, and waits for a block that is
not requested of anyone. -/
theorem notice_behind_stuck :
    let n := peeredNode 160 150 (by decide)
    let step := syncStep {} blankExternals
    (Rollback.run step n [.recvNotice 1 aheadNotice]).sync =
        { syncKnownLibNum := 130, syncLastRequestedNum := 0, syncNextExpectedNum := 151,
          source := some 1, state := .libCatchup } ∧
      ¬ ∀ t ∈ Rollback.trace step n [.recvNotice 1 aheadNotice], WaitsForRequest t.sync := by
  refine ⟨rfl, fun hwaits => ?_⟩
  have hlast := hwaits _ (List.mem_cons_of_mem _ List.mem_cons_self) rfl
  exact absurd hlast (by decide)

end Xidata.Net
