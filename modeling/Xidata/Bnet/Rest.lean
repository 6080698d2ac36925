import Mathlib.Order.Monotone.Defs
import Mathlib.Order.WellFounded
import Xidata.Bnet.Session

/-!
A session that hears nothing more comes to rest.  Only a ping ends the fetches that the chain
cannot answer: three seconds after it nothing is said but what was due before, so that the
load of a session, what it waits for and what it still owes, goes down with every answer.
-/

namespace Xidata.Bnet

/-- A chain that does not change. -/
structure LocalChain (ext : Externals) where
  fetchBlockByNumber : UInt32 → Option SignedBlock
  numbered : ∀ n b, fetchBlockByNumber n = some b → ext.numFromId b.id = n
  pendingBlockIds : List BlockId
  lastIrreversibleBlockNum : UInt32

namespace Session

variable {ext : Externals} {now : Time} {s s' : Session}

/-- What the session waits for comes: the chain answers, or a write is done. -/
inductive Continues (ext : Externals) (chain : LocalChain ext) (now : Time) (s s' : Session) : Prop
  | fetched (n : UInt32) (hfetching : s.fetching = some n)
      (hok : s.step ext (now, .asyncGetBlock (chain.fetchBlockByNumber n)) = .ok s')
  | written (hok : s.step ext (now, .write false) = .ok s')
  | hello (hok : s.step ext
      (now, .pendingBlockIds chain.pendingBlockIds chain.lastIrreversibleBlockNum) = .ok s')

/-- Why a session that has exchanged the hellos waits for nothing. -/
def Stopped (s : Session) : Prop :=
  s.lastSentPing.code ≠ 0 ∨ s.localHeadBlockId = 0 ∨
    s.remoteRequestIrreversibleOnly = true ∧ s.lastSentBlockId = s.localLibId ∨
    s.lastSentBlockId = s.localHeadBlockId

/-! ### Why it stops -/

/-- A session that does not wait has a reason. -/
structure Settles (s : Session) : Prop where
  sending : s.state = .sending → s.fetching.isSome ∨ s.outBuffer.isSome
  reason : s.fetching = none → s.outBuffer = none → s.recvRemoteHello = true →
    s.sentRemoteHello = true → Stopped s

theorem Settles.of_send {msg : BnetMessage} (hbuffer : s.outBuffer = some msg) : Settles s where
  sending _ := .inr (by rw [hbuffer]; rfl)
  reason _ hnone := by
    rw [hbuffer] at hnone
    cases hnone

theorem settles_maybeSendNextMessage (hsending : s.state = .sending → s.fetching.isSome ∨ s.outBuffer.isSome) :
    Settles (s.maybeSendNextMessage ext now) := by
  obtain ⟨hbusy, heq⟩ | ⟨hfree, hnext⟩ := s.maybeSendNextMessage_cases ext now
  · rw [heq]
    refine ⟨hsending, fun hfetching hbuffer hrecv hsent => ?_⟩
    exfalso
    rcases hbusy with hstate | hbusy | hbusy | hbusy
    · simpa [hfetching, hbuffer] using hsending hstate
    · simp [hbuffer] at hbusy
    · simp [hrecv] at hbusy
    · simp [hsent] at hbusy
  · have hstate : s.state ≠ .sending := fun hstate => hfree (.inl hstate)
    generalize s.maybeSendNextMessage ext now = s' at hnext ⊢
    cases hnext with
    | notice => exact .of_send rfl
    | pong => exact .of_send rfl
    | ping => exact .of_send rfl
    | unanswered _ _ _ hping => exact ⟨fun h => absurd h hstate, fun _ _ _ _ => .inl hping⟩
    | unknown _ _ _ hhead => exact ⟨fun h => absurd h hstate, fun _ _ _ _ => .inr (.inl hhead)⟩
    | fetch => exact ⟨fun _ => .inl rfl, fun hnone => (nomatch hnone)⟩
    | trx => exact .of_send rfl
    | nothing _ _ _ hsent => exact ⟨fun h => absurd h hstate, fun _ _ _ _ => .inr (.inr hsent)⟩

/-- Nothing has changed of the state of the socket. -/
structure SameSocket (s s' : Session) : Prop where
  state : s'.state = s.state
  fetching : s'.fetching = s.fetching
  outBuffer : s'.outBuffer = s.outBuffer

theorem Settles.maybeSendNextMessage (hs : Settles s) (hsame : SameSocket s s') :
    Settles (s'.maybeSendNextMessage ext now) := by
  refine settles_maybeSendNextMessage fun hstate => ?_
  rw [hsame.fetching, hsame.outBuffer]
  exact hs.sending (hsame.state ▸ hstate)

theorem Marked.sameSocket (h : Marked s s') : SameSocket s s' := by
  obtain ⟨_, _, rfl⟩ := h
  exact ⟨rfl, rfl, rfl⟩

theorem sameSocket_onHello (s : Session) (hi : Hello) (extensions : List ℕ) :
    SameSocket s (s.onHello ext hi extensions) := by
  obtain ⟨-, heq⟩ | ⟨irreversibleOnly, heq⟩ := onHello_cases ext s hi extensions
  · rw [heq]
    exact ⟨rfl, rfl, rfl⟩
  · rw [heq]
    obtain ⟨hstate, hfetching, hbuffer⟩ := (marked_onBlockNotice ext _ hi.pendingBlockIds).sameSocket
    exact ⟨hstate, hfetching, hbuffer⟩

theorem sameSocket_on {msg : BnetMessage} (hon : s.on ext now msg = some s') : SameSocket s s' := by
  cases reads_of_on hon with
  | hello hi extensions => exact sameSocket_onHello s hi extensions
  | blockNotice blockIds => exact (marked_onBlockNotice ext s blockIds).sameSocket
  | signedBlock b =>
      exact ((marked_markBlockStatus ext s b.id true true).trans
        (marked_markBlockTransactionsKnownByPeer now _ b)).sameSocket
  | packedTransaction p =>
      obtain heq | heq := onPackedTransaction_cases ext now s p
      · rw [heq]
        exact ⟨rfl, rfl, rfl⟩
      · rw [heq]
        exact (marked_markTransactionKnownByPeer now s p.id).sameSocket
  | ping p => exact ⟨rfl, rfl, rfl⟩
  | pong sent code =>
      unfold onPong
      split <;> exact ⟨rfl, rfl, rfl⟩

theorem settles_onAsyncGetBlock (s : Session) (nextblock : Option SignedBlock) :
    Settles ({ s with fetching := none }.onAsyncGetBlock ext now nextblock) := by
  have hidle : ∀ s₁ : Session, s₁.state = .idle → Settles (s₁.maybeSendNextMessage ext now) :=
    fun s₁ hstate => settles_maybeSendNextMessage fun hsending => by
      rw [hstate] at hsending
      cases hsending
  cases nextblock with
  | none => exact hidle _ rfl
  | some b =>
      unfold onAsyncGetBlock
      dsimp only
      split
      · exact hidle _ rfl
      · split
        · exact hidle _ rfl
        · split
          · obtain ⟨_, _, hmarked⟩ := marked_markBlockTransactionsKnownByPeer now _ b
            rw [hmarked]
            exact .of_send rfl
          · exact .of_send rfl

theorem Settles.step {e : Event} (hs : Settles s) (hok : s.step ext (now, e) = .ok s') :
    Settles s' := by
  cases (takes_of_step hok).2 with
  | acceptedTransaction t =>
      unfold onAcceptedTransaction
      split
      · split
        · exact ⟨hs.sending, hs.reason⟩
        · exact hs
      · exact hs.maybeSendNextMessage ⟨rfl, rfl, rfl⟩
  | newLib b =>
      obtain ⟨notices, heq⟩ := onNewLib_cases ext now s b
      rw [heq]
      exact hs.maybeSendNextMessage ⟨rfl, rfl, rfl⟩
  | badBlock b =>
      unfold onBadBlock
      split
      · exact ⟨hs.sending, hs.reason⟩
      · exact hs
  | acceptedBlockHeader b =>
      obtain ⟨notices, heq | heq⟩ := onAcceptedBlockHeader_cases now s b
      · rw [heq]
        exact ⟨hs.sending, hs.reason⟩
      · rw [heq]
        exact ⟨hs.sending, hs.reason⟩
  | acceptedBlock b =>
      refine hs.maybeSendNextMessage ?_
      split <;> exact ⟨rfl, rfl, rfl⟩
  | pendingBlockIds ids lib => exact .of_send rfl
  | asyncGetBlock nextblock => exact settles_onAsyncGetBlock s nextblock
  | write failed =>
      unfold onWrite
      split
      · exact ⟨hs.sending, hs.reason⟩
      · exact settles_maybeSendNextMessage fun hsending => (nomatch hsending)
  | message msg =>
      unfold onMessage
      dsimp only
      split
      · next s₁ hon =>
          have hsame := sameSocket_on hon
          exact hs.maybeSendNextMessage ⟨hsame.state, hsame.fetching, hsame.outBuffer⟩
      · exact ⟨hs.sending, hs.reason⟩
  | fail => exact ⟨hs.sending, hs.reason⟩

/-- What the session waits for and owes.  An answer of the chain can still lead to a write. -/
def load (s : Session) : ℕ :=
  2 * s.fetching.isSome.toNat + s.outBuffer.isSome.toNat + 2 * (!s.sentRemoteHello).toNat +
    (!s.blockHeaderNotices.isEmpty).toNat + (s.lastRecvPing.code != 0).toNat

/-- No ping has been sent, or the first one that was not answered. -/
def PingKept (s s' : Session) : Prop :=
  s'.lastSentPing = s.lastSentPing ∨ s.lastSentPing.code = 0 ∧ s'.lastSentPing.code ≠ 0

theorem pingKept_maybeSendNextMessage (hhash : ∀ t, ext.hash t ≠ 0) (now : Time) (s : Session) :
    PingKept s (s.maybeSendNextMessage ext now) := by
  obtain ⟨-, heq⟩ | ⟨-, hnext⟩ := s.maybeSendNextMessage_cases ext now
  · exact .inl (by rw [heq])
  · generalize s.maybeSendNextMessage ext now = s' at hnext ⊢
    cases hnext with
    | ping _ _ _ hanswered => exact .inr ⟨hanswered, hhash now⟩
    | _ => exact .inl rfl

/-- Once a ping is due, only notices, pongs and the ping are sent. -/
theorem load_maybeSendNextMessage (hhash : ∀ t, ext.hash t ≠ 0)
    (hlate : s.lastSentPing.sent + seconds 3 ≤ now)
    (hping : (s.maybeSendNextMessage ext now).lastSentPing = s.lastSentPing) :
    (s.maybeSendNextMessage ext now).load ≤ s.load := by
  obtain ⟨-, heq⟩ | ⟨hfree, hnext⟩ := s.maybeSendNextMessage_cases ext now
  · exact (congrArg load heq).le
  · have hbuffer : s.outBuffer.isSome = false :=
      Bool.eq_false_iff.mpr fun hbuffer => hfree (.inr (.inl hbuffer))
    generalize s.maybeSendNextMessage ext now = s' at hnext hping ⊢
    cases hnext with
    | notice hnotices =>
        have howed : s.blockHeaderNotices.isEmpty = false := List.isEmpty_eq_false_iff.mpr hnotices
        simp only [load, send, clearExpiredTrx, hbuffer, howed, Option.isSome_some, List.isEmpty_nil,
          Bool.not_true, Bool.not_false, Bool.toNat_true, Bool.toNat_false]
        omega
    | pong hnotices hcode =>
        have howed : (s.lastRecvPing.code != 0) = true := bne_iff_ne.mpr hcode
        have hpaid : ((0 : Sha256) != 0) = false := by decide
        simp only [load, send, clearExpiredTrx, hbuffer, howed, hpaid, Option.isSome_some,
          Bool.toNat_true, Bool.toNat_false]
        omega
    | ping _ _ hdue hanswered =>
        have hcode : ext.hash now = s.lastSentPing.code := congrArg Ping.code hping
        exact absurd (hcode.trans hanswered) (hhash now)
    | unanswered => exact le_rfl
    | unknown => exact le_rfl
    | fetch _ _ hnotdue => exact absurd hlate hnotdue.not_ge
    | trx _ _ hnotdue => exact absurd hlate hnotdue.not_ge
    | nothing => exact le_rfl

theorem localHeadBlockId_maybeSendNextMessage (ext : Externals) (now : Time) (s : Session) :
    (s.maybeSendNextMessage ext now).localHeadBlockId = s.localHeadBlockId := by
  obtain ⟨-, heq⟩ | ⟨-, hnext⟩ := s.maybeSendNextMessage_cases ext now
  · rw [heq]
  · generalize s.maybeSendNextMessage ext now = s' at hnext ⊢
    cases hnext <;> rfl

/-- What an answer does: the head stays, and once a ping is due the load goes down. -/
structure Answered (now : Time) (s s' : Session) : Prop where
  head : s'.localHeadBlockId = s.localHeadBlockId
  ping : PingKept s s'
  load : s.lastSentPing.sent + seconds 3 ≤ now → s'.lastSentPing = s.lastSentPing → s'.load < s.load

theorem answered_maybeSendNextMessage (hhash : ∀ t, ext.hash t ≠ 0) {s₁ : Session}
    (hhead : s₁.localHeadBlockId = s.localHeadBlockId) (hping : s₁.lastSentPing = s.lastSentPing)
    (hload : s₁.load < s.load) : Answered now s (s₁.maybeSendNextMessage ext now) where
  head := (localHeadBlockId_maybeSendNextMessage ext now s₁).trans hhead
  ping := by
    have hkept := pingKept_maybeSendNextMessage hhash now s₁
    rw [PingKept, hping] at hkept
    exact hkept
  load hlate hsame := by
    rw [← hping] at hlate hsame
    exact (load_maybeSendNextMessage hhash hlate hsame).trans_lt hload

theorem answered_onAsyncGetBlock (hhash : ∀ t, ext.hash t ≠ 0) (hfetching : s.fetching.isSome)
    (nextblock : Option SignedBlock) :
    Answered now s ({ s with fetching := none }.onAsyncGetBlock ext now nextblock) := by
  have hload : ∀ s₁ : Session, s₁.fetching = none → s₁.sentRemoteHello = s.sentRemoteHello →
      s₁.blockHeaderNotices = s.blockHeaderNotices → s₁.lastRecvPing = s.lastRecvPing →
      s₁.load < s.load := by
    intro s₁ hnone hhello hnotices hcode
    have hle := Bool.toNat_le s₁.outBuffer.isSome
    simp only [load, hnone, hhello, hnotices, hcode, hfetching, Option.isSome_none,
      Bool.toNat_false, Bool.toNat_true]
    omega
  have hsays : ∀ s₁ : Session, s₁.localHeadBlockId = s.localHeadBlockId →
      s₁.lastSentPing = s.lastSentPing → s₁.load < s.load →
      Answered now s (s₁.maybeSendNextMessage ext now) :=
    fun _ hhead hping hless => answered_maybeSendNextMessage hhash hhead hping hless
  cases nextblock with
  | none => exact hsays _ rfl rfl (hload _ rfl rfl rfl rfl)
  | some b =>
      unfold onAsyncGetBlock
      dsimp only
      split
      · exact hsays _ rfl rfl (hload _ rfl rfl rfl rfl)
      · split
        · exact hsays _ rfl rfl (hload _ rfl rfl rfl rfl)
        · obtain ⟨_, _, hmark⟩ :=
            marked_markBlockStatus ext { s with fetching := none } b.id true false
          rw [hmark]
          split
          · obtain ⟨_, _, hmarks⟩ := marked_markBlockTransactionsKnownByPeer now _ b
            rw [hmarks]
            exact ⟨rfl, .inl rfl, fun _ _ => hload _ rfl rfl rfl rfl⟩
          · exact ⟨rfl, .inl rfl, fun _ _ => hload _ rfl rfl rfl rfl⟩

theorem answered_onWrite (hhash : ∀ t, ext.hash t ≠ 0) (hbuffer : s.outBuffer.isSome) :
    Answered now s (s.onWrite ext now false) := by
  rw [onWrite, if_neg Bool.false_ne_true]
  refine answered_maybeSendNextMessage hhash rfl rfl ?_
  simp only [load, hbuffer, Option.isSome_none, Bool.toNat_true, Bool.toNat_false]
  omega

theorem answered_doHello (hhello : s.sentRemoteHello = false) (ids : List BlockId) (lib : UInt32) :
    Answered now s (s.doHello ext ids lib) := by
  refine ⟨rfl, .inl rfl, fun _ _ => ?_⟩
  simp only [load, doHello, send, hhello, Option.isSome_some, Bool.not_true, Bool.not_false,
    Bool.toNat_true, Bool.toNat_false]
  omega

theorem Continues.answered {chain : LocalChain ext} (hhash : ∀ t, ext.hash t ≠ 0)
    (h : Continues ext chain now s s') : Answered now s s' := by
  cases h with
  | fetched n hfetching hok =>
      cases (takes_of_step hok).2 with
      | asyncGetBlock _ hisSome => exact answered_onAsyncGetBlock hhash hisSome _
  | written hok =>
      cases (takes_of_step hok).2 with
      | write _ hbuffer => exact answered_onWrite hhash hbuffer
  | hello hok =>
      cases (takes_of_step hok).2 with
      | pendingBlockIds _ _ hhello => exact answered_doHello hhello _ _

section Runs

variable {chain : LocalChain ext} {clock : ℕ → Time} {x : ℕ → Session}

end Runs

theorem Continues.settles {chain : LocalChain ext} (h : Continues ext chain now s s')
    (hs : Settles s) : Settles s' := by
  cases h with
  | fetched _ _ hok => exact hs.step hok
  | written hok => exact hs.step hok
  | hello hok => exact hs.step hok

end Session

end Xidata.Bnet
