import Mathlib.Logic.Relation
import Xidata.Bnet.Session

/-!
Whether the peer can link the blocks that a session sends.  The session holds a position on
the chain and the ids that it knows the peer to have; both stay with what the peer has, unless
the session falls back to the last irreversible block of the local chain, which the peer need
not have.
-/

namespace Xidata.Bnet

/-- The blocks that a message tells of. -/
def BnetMessage.blockIds : BnetMessage → List BlockId
  | .hello hi _ => hi.pendingBlockIds
  | .blockNotice ids => ids
  | .signedBlock (some b) => [b.id]
  | _ => []

def BnetMessage.block : BnetMessage → Option SignedBlock
  | .signedBlock b => b
  | _ => none

namespace Session

variable {ext : Externals} {now : Time} {s s' : Session} {id : BlockId}

def sentBlocks (s : Session) : List SignedBlock := s.sent.filterMap BnetMessage.block

/-- The blocks that the peer has listed, noticed or sent, and those that it was sent. -/
def shared (s : Session) : List BlockId :=
  s.heard.flatMap BnetMessage.blockIds ++ s.sentBlocks.map SignedBlock.id

variable (ext s id) in
/-- The peer is known to have the block: it is one of these, or before one of them on its
chain. -/
def PeerHas : Prop := ∃ k ∈ s.shared, Relation.ReflTransGen (fun a b => ext.previous a = b) k id

variable (ext s) in
/-- The first block of a chain links to nothing. -/
def Linkable (b : SignedBlock) : Prop := ext.previous b.id = 0 ∨ PeerHas ext s (ext.previous b.id)

/-- The blocks that have been sent from one state to the next. -/
def sentSince (s s' : Session) : List SignedBlock := s'.sentBlocks.drop s.sentBlocks.length

variable (ext) in
/-- The session goes back to the last irreversible block: a block does not follow what the peer
is known to have, or the head is behind the position. -/
def FallsBack (s : Session) : Event → Prop
  | .asyncGetBlock (some b) =>
      ext.previous b.id ≠ s.lastSentBlockId ∧ s.isKnownByPeer (ext.previous b.id) = false
  | .acceptedBlock b => ext.numFromId b.id < s.lastSentBlockNum
  | _ => False

instance (e : Event) : Decidable (FallsBack ext s e) := by
  unfold FallsBack
  split <;> infer_instance

/-! ### The position -/

variable (ext s) in
/-- What the session takes for known to the peer is known to it. -/
structure Positioned : Prop where
  status : ∀ item ∈ s.blockStatus, item.knownByPeer = true → item.id ∈ s.shared
  last : s.lastSentBlockId = 0 ∨ PeerHas ext s s.lastSentBlockId

theorem peerHas_of_mem (h : id ∈ s.shared) : PeerHas ext s id := ⟨id, h, .refl⟩

theorem PeerHas.mono (h : PeerHas ext s id) (hshared : s.shared ⊆ s'.shared) : PeerHas ext s' id := by
  obtain ⟨k, hk, hchain⟩ := h
  exact ⟨k, hshared hk, hchain⟩

theorem Positioned.isKnownByPeer (h : Positioned ext s) (hknown : s.isKnownByPeer id = true) :
    id ∈ s.shared := by
  obtain ⟨item, hfind, hitem⟩ := (Option.any_eq_true _ _).mp hknown
  obtain ⟨hmem, hid⟩ := mem_of_findBlock hfind
  exact hid ▸ h.status item hmem hitem

/-- No block is sent, the position stays, and only what the peer has is newly taken for
known. -/
structure Keeps (s s' : Session) : Prop where
  status : ∀ item ∈ s'.blockStatus, item.knownByPeer = true → item ∈ s.blockStatus ∨ item.id ∈ s.shared
  last : s'.lastSentBlockId = s.lastSentBlockId
  heard : s'.heard = s.heard
  sentBlocks : s'.sentBlocks = s.sentBlocks

theorem Keeps.of_eq (hstatus : s'.blockStatus = s.blockStatus)
    (hlast : s'.lastSentBlockId = s.lastSentBlockId) (hheard : s'.heard = s.heard)
    (hsent : s'.sentBlocks = s.sentBlocks) : Keeps s s' :=
  ⟨fun _ hitem _ => .inl (hstatus ▸ hitem), hlast, hheard, hsent⟩

theorem Keeps.shared (h : Keeps s s') : s'.shared = s.shared := by
  rw [Session.shared, h.heard, h.sentBlocks, Session.shared]

theorem Keeps.trans {s₁ s₂ : Session} (h : Keeps s s₁) (h' : Keeps s₁ s₂) : Keeps s s₂ where
  status item hitem hknown := by
    obtain hmem | hshared := h'.status item hitem hknown
    · exact h.status item hmem hknown
    · exact .inr (h.shared ▸ hshared)
  last := h'.last.trans h.last
  heard := h'.heard.trans h.heard
  sentBlocks := h'.sentBlocks.trans h.sentBlocks

theorem Keeps.foldl {ι : Type} {f : Session → ι → Session} {l : List ι}
    (hf : ∀ i ∈ l, ∀ s₁, Keeps s s₁ → Keeps s₁ (f s₁ i)) : Keeps s (l.foldl f s) :=
  List.foldlRecOn (motive := Keeps s) l f (.of_eq rfl rfl rfl rfl)
    fun s₁ hs₁ i hi => hs₁.trans (hf i hi s₁ hs₁)

theorem Keeps.positioned (h : Keeps s s') (hs : Positioned ext s) : Positioned ext s' where
  status item hitem hknown := by
    rw [h.shared]
    exact (h.status item hitem hknown).elim (hs.status item · hknown) id
  last := by
    rw [h.last, PeerHas, h.shared]
    exact hs.last

theorem Keeps.sentSince (h : Keeps s s') : sentSince s s' = [] := by
  rw [Session.sentSince, h.sentBlocks, List.drop_length]

theorem keeps_send {msg : BnetMessage} (hmsg : msg.block = none) (s : Session) : Keeps s (s.send msg) :=
  .of_eq rfl rfl rfl (by simp [sentBlocks, send, hmsg])

theorem keeps_maybeSendNextMessage (ext : Externals) (now : Time) (s : Session) :
    Keeps s (s.maybeSendNextMessage ext now) := by
  obtain ⟨-, heq⟩ | ⟨-, hnext⟩ := s.maybeSendNextMessage_cases ext now
  · rw [heq]
    exact .of_eq rfl rfl rfl rfl
  · generalize s.maybeSendNextMessage ext now = s' at hnext ⊢
    have hclear : Keeps s (s.clearExpiredTrx now) := .of_eq rfl rfl rfl rfl
    refine hclear.trans ?_
    cases hnext with
    | notice => exact (keeps_send rfl _).trans (.of_eq rfl rfl rfl rfl)
    | pong => exact (keeps_send rfl _).trans (.of_eq rfl rfl rfl rfl)
    | ping =>
        refine Keeps.trans ?_ (keeps_send rfl _)
        exact .of_eq rfl rfl rfl rfl
    | unanswered => exact .of_eq rfl rfl rfl rfl
    | unknown => exact .of_eq rfl rfl rfl rfl
    | fetch => exact .of_eq rfl rfl rfl rfl
    | trx =>
        refine Keeps.trans ?_ (keeps_send rfl _)
        exact .of_eq rfl rfl rfl rfl
    | nothing => exact .of_eq rfl rfl rfl rfl

theorem keeps_markBlockStatus {s₁ : Session} (h : Keeps s s₁) {known recv : Bool}
    (hid : id ∈ s.shared) : Keeps s₁ (s₁.markBlockStatus ext id known recv) := by
  obtain ⟨blockStatus, heq, hstatus⟩ := markBlockStatus_cases ext s₁ id known recv
  rw [heq]
  refine ⟨fun item hitem _ => (hstatus item hitem).imp_right fun heq => ?_, rfl, rfl, rfl⟩
  rw [heq, h.shared]
  exact hid

theorem keeps_markTransactionKnownByPeer (now : Time) (s : Session) (id : TransactionId) :
    Keeps s (s.markTransactionKnownByPeer now id) := by
  unfold markTransactionKnownByPeer
  split <;> exact .of_eq rfl rfl rfl rfl

theorem keeps_markBlockTransactionsKnownByPeer (now : Time) (s : Session) (b : SignedBlock) :
    Keeps s (s.markBlockTransactionsKnownByPeer now b) :=
  .foldl fun id _ s₁ _ => keeps_markTransactionKnownByPeer now s₁ id

/-! ### The handlers -/

theorem keeps_onAcceptedTransaction (s : Session) (t : PackedTransaction) :
    Keeps s (s.onAcceptedTransaction ext now t) := by
  unfold onAcceptedTransaction
  split
  · split <;> exact .of_eq rfl rfl rfl rfl
  · refine Keeps.trans ?_ (keeps_maybeSendNextMessage ext now _)
    exact .of_eq rfl rfl rfl rfl

theorem keeps_onNewLib (s : Session) (b : SignedBlock) : Keeps s (s.onNewLib ext now b) := by
  obtain ⟨notices, heq⟩ := onNewLib_cases ext now s b
  rw [heq]
  refine Keeps.trans ?_ (keeps_maybeSendNextMessage ext now _)
  exact ⟨fun item hitem _ => .inl (List.mem_filter.mp hitem).1, rfl, rfl, rfl⟩

theorem keeps_onBadBlock (s : Session) (b : SignedBlock) : Keeps s (s.onBadBlock b) := by
  unfold onBadBlock
  split <;> exact .of_eq rfl rfl rfl rfl

theorem keeps_onAcceptedBlockHeader (s : Session) (b : SignedBlock) :
    Keeps s (s.onAcceptedBlockHeader now b) := by
  obtain ⟨notices, heq | heq⟩ := onAcceptedBlockHeader_cases now s b
  · rw [heq]
    exact .of_eq rfl rfl rfl rfl
  · rw [heq]
    refine ⟨fun item hitem hknown => .inl ?_, rfl, rfl, rfl⟩
    obtain hmem | hmem := List.mem_append.mp hitem
    · exact hmem
    · rw [List.mem_singleton.mp hmem] at hknown
      cases hknown

theorem keeps_onBlockNotice {ids : List BlockId} (hids : ∀ id ∈ ids, id ∈ s.shared) :
    Keeps s (s.onBlockNotice ext ids) :=
  .foldl fun id hid _ hs₁ => keeps_markBlockStatus hs₁ (hids id hid)

theorem keeps_onHello {hi : Hello} (extensions : List ℕ)
    (hids : ∀ id ∈ hi.pendingBlockIds, id ∈ s.shared) : Keeps s (s.onHello ext hi extensions) := by
  obtain ⟨-, heq⟩ | ⟨irreversibleOnly, heq⟩ := onHello_cases ext s hi extensions
  · rw [heq]
    exact .of_eq rfl rfl rfl rfl
  · rw [heq]
    refine Keeps.trans ?_ (keeps_onBlockNotice hids)
    exact .of_eq rfl rfl rfl rfl

theorem keeps_onSignedBlock {b : SignedBlock} (hid : b.id ∈ s.shared) :
    Keeps s (s.onSignedBlock ext now b) :=
  (keeps_markBlockStatus (.of_eq rfl rfl rfl rfl) hid).trans
    (keeps_markBlockTransactionsKnownByPeer now _ b)

theorem keeps_onPackedTransaction (s : Session) (p : PackedTransaction) :
    Keeps s (s.onPackedTransaction ext now p) := by
  obtain heq | heq := onPackedTransaction_cases ext now s p
  · rw [heq]
    exact .of_eq rfl rfl rfl rfl
  · rw [heq]
    exact keeps_markTransactionKnownByPeer now s p.id

theorem keeps_onPong (s : Session) (code : Sha256) : Keeps s (s.onPong code) := by
  unfold onPong
  split <;> exact .of_eq rfl rfl rfl rfl

/-- What a message tells of is shared once it has been read. -/
theorem keeps_on {msg : BnetMessage} (hids : ∀ id ∈ msg.blockIds, id ∈ s.shared)
    (hon : s.on ext now msg = some s') : Keeps s s' := by
  cases reads_of_on hon with
  | hello hi extensions => exact keeps_onHello extensions hids
  | blockNotice blockIds => exact keeps_onBlockNotice hids
  | signedBlock b => exact keeps_onSignedBlock (hids b.id (List.mem_singleton.mpr rfl))
  | packedTransaction p => exact keeps_onPackedTransaction s p
  | ping p => exact .of_eq rfl rfl rfl rfl
  | pong sent code => exact keeps_onPong s code

/-! ### Steps -/

theorem linkable_of_keeps (h : Keeps s s') : ∀ b ∈ sentSince s s', Linkable ext s b := by
  rw [h.sentSince]
  exact List.forall_mem_nil _

/-- The position moves to another block that the peer has, or to none. -/
theorem Positioned.move (hs : Positioned ext s) (hkeeps : Keeps s { s' with lastSentBlockId := s.lastSentBlockId })
    (hlast : s'.lastSentBlockId = 0 ∨ PeerHas ext s s'.lastSentBlockId) : Positioned ext s' := by
  have hmoved := hkeeps.positioned hs
  have hshared : s'.shared = s.shared := hkeeps.shared
  refine ⟨hmoved.status, hlast.imp_right fun hhas => hhas.mono ?_⟩
  rw [hshared]
  exact List.Subset.refl _

theorem Positioned.onAcceptedBlock (hs : Positioned ext s) (now : Time) (b : SignedBlock)
    (hfall : ext.numFromId b.id < s.lastSentBlockNum →
      s.localLibId = 0 ∨ PeerHas ext s s.localLibId) :
    Positioned ext (s.onAcceptedBlock ext now b) ∧
      (s.onAcceptedBlock ext now b).sentBlocks = s.sentBlocks := by
  have hsend := keeps_maybeSendNextMessage ext now
  unfold Session.onAcceptedBlock
  dsimp only
  split
  · next hbehind =>
      refine ⟨(hsend _).positioned (hs.move ?_ (hfall hbehind)), (hsend _).sentBlocks⟩
      exact .of_eq rfl rfl rfl rfl
  · refine ⟨(hsend _).positioned (hs.move ?_ hs.last), (hsend _).sentBlocks⟩
    exact .of_eq rfl rfl rfl rfl

/-- What is sent becomes the position. -/
theorem Positioned.sendBlock (hs : Positioned ext s) (b : SignedBlock) (num : UInt32) :
    Positioned ext ({ s.markBlockStatus ext b.id true false with
        lastSentBlockId := b.id
        lastSentBlockNum := num }.send (.signedBlock (some b))) ∧
      ({ s.markBlockStatus ext b.id true false with
        lastSentBlockId := b.id
        lastSentBlockNum := num }.send (.signedBlock (some b))).sentBlocks = s.sentBlocks ++ [b] := by
  obtain ⟨blockStatus, hmark, hstatus⟩ := markBlockStatus_cases ext s b.id true false
  rw [hmark]
  generalize hs' : Session.send _ _ = s'
  have hsent : s'.sentBlocks = s.sentBlocks ++ [b] := by
    rw [← hs']
    simp [sentBlocks, send, BnetMessage.block]
  have hshared : s'.shared = s.shared ++ [b.id] := by
    rw [shared, hsent, ← hs', shared, List.map_append, List.append_assoc]
    rfl
  refine ⟨⟨fun item hitem hknown => ?_, ?_⟩, hsent⟩
  · rw [← hs'] at hitem
    rw [hshared, List.mem_append, List.mem_singleton]
    exact (hstatus item hitem).imp_left fun hmem => hs.status item hmem hknown
  · have hlast : s'.lastSentBlockId = b.id := by rw [← hs']; rfl
    rw [hlast]
    exact .inr (peerHas_of_mem (by simp [hshared]))

/-- A block is only sent if it follows the position or a block that the peer has. -/
theorem Positioned.onAsyncGetBlock (hs : Positioned ext s) {nextblock : Option SignedBlock}
    (hfall : FallsBack ext s (.asyncGetBlock nextblock) →
      s.localLibId = 0 ∨ PeerHas ext s s.localLibId) :
    Positioned ext (s.onAsyncGetBlock ext now nextblock) ∧
      ∀ b ∈ sentSince s (s.onAsyncGetBlock ext now nextblock), Linkable ext s b := by
  have hsend := keeps_maybeSendNextMessage ext now
  cases nextblock with
  | none =>
      have hkeeps : Keeps s (s.onAsyncGetBlock ext now none) := by
        refine Keeps.trans ?_ (hsend _)
        exact .of_eq rfl rfl rfl rfl
      exact ⟨hkeeps.positioned hs, linkable_of_keeps hkeeps⟩
  | some b =>
      unfold Session.onAsyncGetBlock
      dsimp only
      split
      · next hunlinked =>
          rw [Bool.not_eq_true'] at hunlinked
          refine ⟨(hsend _).positioned (hs.move ?_ (hfall hunlinked)), ?_⟩
          · exact .of_eq rfl rfl rfl rfl
          · rw [Session.sentSince, (hsend _).sentBlocks]
            exact fun b hb => absurd hb (by simp [sentBlocks])
      · next hlinked =>
          split
          · next hknown =>
              refine ⟨(hsend _).positioned (hs.move ?_ ?_), ?_⟩
              · exact .of_eq rfl rfl rfl rfl
              · exact .inr (peerHas_of_mem (hs.isKnownByPeer hknown))
              · rw [Session.sentSince, (hsend _).sentBlocks]
                exact fun b hb => absurd hb (by simp [sentBlocks])
          · obtain ⟨hpositioned, hsent⟩ := hs.sendBlock b (ext.numFromId b.id)
            have hkeeps : ∀ s₁ : Session, Keeps s₁
                (if now < b.timestamp + seconds 5 then s₁.markBlockTransactionsKnownByPeer now b
                else s₁) := by
              intro s₁
              split
              · exact keeps_markBlockTransactionsKnownByPeer now s₁ b
              · exact .of_eq rfl rfl rfl rfl
            refine ⟨(hkeeps _).positioned hpositioned, fun b' hb' => ?_⟩
            rw [Session.sentSince, (hkeeps _).sentBlocks, hsent, List.drop_left,
              List.mem_singleton] at hb'
            rw [hb', Linkable]
            by_cases hlast : ext.previous b.id = s.lastSentBlockId
            · rw [hlast]
              exact hs.last
            · have hknown : s.isKnownByPeer (ext.previous b.id) = true := by
                by_contra hunknown
                exact hlinked ⟨hlast, by rw [Bool.not_eq_true', Bool.eq_false_iff]; exact hunknown⟩
              exact .inr (peerHas_of_mem (hs.isKnownByPeer hknown))

theorem keeps_doHello (s : Session) (ids : List BlockId) (lib : UInt32) :
    Keeps s (s.doHello ext ids lib) := by
  have hkeeps : Keeps s { s with localLib := lib, sentRemoteHello := true } := .of_eq rfl rfl rfl rfl
  exact hkeeps.trans (keeps_send rfl _)

theorem keeps_onWrite (s : Session) (failed : Bool) : Keeps s (s.onWrite ext now failed) := by
  unfold onWrite
  split
  · exact .of_eq rfl rfl rfl rfl
  · refine Keeps.trans ?_ (keeps_maybeSendNextMessage ext now _)
    exact .of_eq rfl rfl rfl rfl

theorem Positioned.onMessage (hs : Positioned ext s) (now : Time) (msg : BnetMessage) :
    Positioned ext (s.onMessage ext now msg) ∧
      (s.onMessage ext now msg).sentBlocks = s.sentBlocks := by
  unfold Session.onMessage
  dsimp only
  generalize hread : ({ s with heard := s.heard ++ [msg] } : Session) = s₁
  have hshared : s₁.shared = s.heard.flatMap BnetMessage.blockIds ++ msg.blockIds ++
      s.sentBlocks.map SignedBlock.id := by
    rw [← hread]
    simp [shared, sentBlocks]
  have hs₁ : Positioned ext s₁ := by
    have hsub : s.shared ⊆ s₁.shared := by
      intro id hid
      rw [shared, List.mem_append] at hid
      rw [hshared, List.mem_append, List.mem_append]
      exact hid.imp_left .inl
    rw [← hread] at hsub ⊢
    exact ⟨fun item hitem hknown => hsub (hs.status item hitem hknown),
      hs.last.imp_right fun hhas => hhas.mono hsub⟩
  have hids : ∀ id ∈ msg.blockIds, id ∈ s₁.shared := by
    intro id hid
    rw [hshared]
    simp [hid]
  have hsent : s₁.sentBlocks = s.sentBlocks := by
    rw [← hread]
    rfl
  cases hon : s₁.on ext now msg with
  | none =>
      have hkeeps : Keeps s₁ s₁.doGoodbye := .of_eq rfl rfl rfl rfl
      exact ⟨hkeeps.positioned hs₁, hkeeps.sentBlocks.trans hsent⟩
  | some s₂ =>
      have hkeeps := (keeps_on hids hon).trans (keeps_maybeSendNextMessage ext now s₂)
      exact ⟨hkeeps.positioned hs₁, hkeeps.sentBlocks.trans hsent⟩

theorem Positioned.step {e : Event} (hs : Positioned ext s) (hok : s.step ext (now, e) = .ok s')
    (hfall : FallsBack ext s e → s.localLibId = 0 ∨ PeerHas ext s s.localLibId) :
    Positioned ext s' ∧ ∀ b ∈ sentSince s s', Linkable ext s b := by
  have hkept : Keeps s s' → Positioned ext s' ∧ ∀ b ∈ sentSince s s', Linkable ext s b :=
    fun hkeeps => ⟨hkeeps.positioned hs, linkable_of_keeps hkeeps⟩
  have hnone : s'.sentBlocks = s.sentBlocks → ∀ b ∈ sentSince s s', Linkable ext s b := by
    intro hsent
    rw [sentSince, hsent, List.drop_length]
    exact List.forall_mem_nil _
  cases (takes_of_step hok).2 with
  | acceptedTransaction t => exact hkept (keeps_onAcceptedTransaction s t)
  | newLib b => exact hkept (keeps_onNewLib s b)
  | badBlock b => exact hkept (keeps_onBadBlock s b)
  | acceptedBlockHeader b => exact hkept (keeps_onAcceptedBlockHeader s b)
  | acceptedBlock b =>
      obtain ⟨hpositioned, hsent⟩ := hs.onAcceptedBlock now b hfall
      exact ⟨hpositioned, hnone hsent⟩
  | pendingBlockIds ids lib => exact hkept (keeps_doHello s ids lib)
  | asyncGetBlock nextblock =>
      have hkeeps : Keeps s { s with fetching := none } := .of_eq rfl rfl rfl rfl
      exact (hkeeps.positioned hs).onAsyncGetBlock hfall
  | write failed => exact hkept (keeps_onWrite s failed)
  | message msg =>
      obtain ⟨hpositioned, hsent⟩ := hs.onMessage now msg
      exact ⟨hpositioned, hnone hsent⟩
  | fail => exact hkept (.of_eq rfl rfl rfl rfl)

theorem positioned_empty : Positioned ext {} := ⟨List.forall_mem_nil _, .inl rfl⟩

/-- In every run whose session only falls back to a last irreversible block that the peer is
known to have, each block that is sent can be linked by the peer. -/
theorem linkable_of_fallsBack (ext : Externals) {es : List (Time × Event)}
    (hfall : Rollback.Along (step ext) (fun s e _ =>
      FallsBack ext s e.2 → s.localLibId = 0 ∨ PeerHas ext s s.localLibId) {} es) :
    Rollback.Along (step ext) (fun s _ s' => ∀ b ∈ sentSince s s', Linkable ext s b) {} es :=
  Rollback.Along.of_invariant (fun _ (_, _) _ hs hok hfall => hs.step hok hfall) hfall
    positioned_empty

/-! ### Some runs -/

theorem le_of_peerHas (h : PeerHas numberedChain s id) : ∃ k ∈ s.shared, id.toNat ≤ k.toNat := by
  obtain ⟨k, hk, hchain⟩ := h
  refine ⟨k, hk, ?_⟩
  induction hchain with
  | refl => exact le_rfl
  | tail _ hprevious ih =>
      rw [← hprevious]
      refine le_trans ?_ ih
      simp only [numberedChain, BitVec.toNat_ofNat]
      exact (Nat.mod_le _ _).trans (Nat.sub_le _ _)

/-- The peer has the block 5, to which the session falls back first. -/
theorem linkable_from_lib : Rollback.Along (step numberedChain)
    (fun s _ s' => ∀ b ∈ sentSince s s', Linkable numberedChain s b) {}
    (withPeer 5 [6, 6, 7, 8, 9]) := by
  refine linkable_of_fallsBack numberedChain ?_
  have hlib : Rollback.Along (step numberedChain)
      (fun s e _ => FallsBack numberedChain s e.2 → s.localLibId ∈ s.shared) {}
      (withPeer 5 [6, 6, 7, 8, 9]) := by decide +kernel
  refine Rollback.Along.of_invariant (I := fun _ => True) (fun s e s' _ _ hmem => ?_) hlib trivial
  exact ⟨trivial, fun hfall => .inr (peerHas_of_mem (hmem hfall))⟩

/-- The local chain has more irreversible blocks than the peer has at all: the session goes on
behind its own. -/
theorem linkable_fails : ¬ Rollback.Along (step numberedChain)
    (fun s _ s' => ∀ b ∈ sentSince s s', Linkable numberedChain s b) {} (withPeer 100 [6, 101]) := by
  intro h
  have hsplit : withPeer 100 [6, 101] =
      withPeer 100 [6] ++ [(seconds 10, .asyncGetBlock (some (blockOf 101)))] := by
    simp [withPeer]
  rw [hsplit] at h
  have hok : step numberedChain (Rollback.run (step numberedChain) {} (withPeer 100 [6]))
      (seconds 10, .asyncGetBlock (some (blockOf 101))) = .ok
        (Rollback.run (step numberedChain) {} (withPeer 100 [6, 101])) := by decide +kernel
  have hlast := h.last hok
  have hsent : blockOf 101 ∈ sentSince (Rollback.run (step numberedChain) {} (withPeer 100 [6]))
      (Rollback.run (step numberedChain) {} (withPeer 100 [6, 101])) := by decide +kernel
  obtain hfirst | hhas := hlast _ hsent
  · exact absurd hfirst (by decide)
  · obtain ⟨k, hk, hle⟩ := le_of_peerHas hhas
    have hshared : (Rollback.run (step numberedChain) {} (withPeer 100 [6])).shared = [5, 6, 7, 8] := by
      decide +kernel
    rw [hshared] at hk
    have hlt : k.toNat < 100 := by
      simp only [List.mem_cons, List.not_mem_nil, or_false] at hk
      rcases hk with rfl | rfl | rfl | rfl <;> decide
    exact absurd hle hlt.not_ge

end Session

end Xidata.Bnet
