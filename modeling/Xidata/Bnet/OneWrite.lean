import Xidata.Bnet.Session

/-!
The asynchronous writes of a session.  Each message that is sent starts one, out of the one
output buffer, and the socket reports its end; here a session goes on after its socket has
been closed, since the plugin still calls it for what happens on the local chain.  At most one
write is under way, and the buffer stays as it was when the write was started.
-/

namespace Xidata.Bnet

/-- A session with the number of its writes that have come to an end. -/
structure Writer where
  session : Session := {}
  written : ℕ := 0
  deriving DecidableEq

/-- The hello, the block that is fetched and the message that is written come back to the
session in a callback of their own. -/
def Event.isCallback : Event → Bool
  | .pendingBlockIds _ _ | .asyncGetBlock _ | .write _ => true
  | _ => false

def Event.writesCompleted : Event → ℕ
  | .write _ => 1
  | _ => 0

namespace Session

def react (ext : Externals) (now : Time) (s : Session) : Event → Session
  | .acceptedTransaction t => s.onAcceptedTransaction ext now t
  | .newLib b => s.onNewLib ext now b
  | .badBlock b => s.onBadBlock b
  | .acceptedBlockHeader b => s.onAcceptedBlockHeader now b
  | .acceptedBlock b => s.onAcceptedBlock ext now b
  | .pendingBlockIds ids lib => s.doHello ext ids lib
  | .asyncGetBlock nextblock => { s with fetching := none }.onAsyncGetBlock ext now nextblock
  | .write failed => s.onWrite ext now failed
  | .message msg => s.onMessage ext now msg
  | .fail => s.doGoodbye

end Session

namespace Writer

/-- The messages whose writes have been started and not completed. -/
def outstanding (w : Writer) : List BnetMessage := w.session.sent.drop w.written

/-- A callback comes once for what was started; everything else comes at any time. -/
def due (w : Writer) : Event → Bool
  | .pendingBlockIds _ _ => !w.session.sentRemoteHello
  | .asyncGetBlock _ => w.session.fetching.isSome
  | .write _ => w.outstanding ≠ []
  | _ => true

def step (ext : Externals) (w : Writer) : Time × Event → Except Unit Writer
  | (now, e) =>
    if w.due e then
      .ok { session := w.session.react ext now e, written := w.written + e.writesCompleted }
    else .error ()

end Writer

namespace Session

variable {ext : Externals} {now : Time} {s s' : Session} {e : Event} {written : ℕ}

/-! ### What leaves the socket alone -/

/-- Nothing is packed, started or completed. -/
structure Quiet (s s' : Session) : Prop where
  state : s'.state = s.state
  outBuffer : s'.outBuffer = s.outBuffer
  fetching : s'.fetching = s.fetching
  sent : s'.sent = s.sent
  sentRemoteHello : s'.sentRemoteHello = s.sentRemoteHello
  closed : s.closed → s'.closed

theorem Quiet.refl (s : Session) : Quiet s s := ⟨rfl, rfl, rfl, rfl, rfl, id⟩

theorem quiet_doGoodbye (s : Session) : Quiet s s.doGoodbye :=
  ⟨rfl, rfl, rfl, rfl, rfl, fun _ => rfl⟩

theorem Marked.quiet (h : Marked s s') : Quiet s s' := by
  obtain ⟨_, _, rfl⟩ := h
  exact ⟨rfl, rfl, rfl, rfl, rfl, id⟩

theorem quiet_onHello (s : Session) (hi : Hello) (extensions : List ℕ) :
    Quiet s (s.onHello ext hi extensions) := by
  obtain ⟨-, heq⟩ | ⟨irreversibleOnly, heq⟩ := onHello_cases ext s hi extensions
  · rw [heq]
    exact ⟨rfl, rfl, rfl, rfl, rfl, fun _ => rfl⟩
  · rw [heq]
    obtain ⟨hstate, hbuffer, hfetching, hsent, hhello, hclosed⟩ :=
      (marked_onBlockNotice ext _ hi.pendingBlockIds).quiet
    exact ⟨hstate, hbuffer, hfetching, hsent, hhello, hclosed⟩

theorem quiet_on {msg : BnetMessage} (hon : s.on ext now msg = some s') : Quiet s s' := by
  cases reads_of_on hon with
  | hello hi extensions => exact quiet_onHello s hi extensions
  | blockNotice blockIds => exact (marked_onBlockNotice ext s blockIds).quiet
  | signedBlock b =>
      exact ((marked_markBlockStatus ext s b.id true true).trans
        (marked_markBlockTransactionsKnownByPeer now _ b)).quiet
  | packedTransaction p =>
      obtain heq | heq := onPackedTransaction_cases ext now s p
      · rw [heq]
        exact .refl s
      · rw [heq]
        exact (marked_markTransactionKnownByPeer now s p.id).quiet
  | ping p => exact ⟨rfl, rfl, rfl, rfl, rfl, id⟩
  | pong sent code =>
      unfold onPong
      split
      · exact quiet_doGoodbye s
      · exact ⟨rfl, rfl, rfl, rfl, rfl, id⟩

/-- What is no callback changes other things, and then there may be something to say. -/
theorem react_cases (ext : Externals) (now : Time) (s : Session) (he : e.isCallback = false) :
    ∃ s₁, Quiet s s₁ ∧
      (s.react ext now e = s₁ ∨ s.react ext now e = s₁.maybeSendNextMessage ext now) := by
  cases e with
  | acceptedTransaction t =>
      simp only [react]
      unfold onAcceptedTransaction
      split
      · split
        · refine ⟨_, ?_, .inl rfl⟩
          exact ⟨rfl, rfl, rfl, rfl, rfl, id⟩
        · exact ⟨s, .refl s, .inl rfl⟩
      · refine ⟨_, ?_, .inr rfl⟩
        exact ⟨rfl, rfl, rfl, rfl, rfl, id⟩
  | newLib b =>
      obtain ⟨notices, heq⟩ := onNewLib_cases ext now s b
      refine ⟨_, ?_, .inr heq⟩
      exact ⟨rfl, rfl, rfl, rfl, rfl, id⟩
  | badBlock b =>
      simp only [react]
      unfold onBadBlock
      split
      · exact ⟨_, quiet_doGoodbye s, .inl rfl⟩
      · exact ⟨s, .refl s, .inl rfl⟩
  | acceptedBlockHeader b =>
      obtain ⟨notices, heq | heq⟩ := onAcceptedBlockHeader_cases now s b
      · refine ⟨_, ?_, .inl heq⟩
        exact ⟨rfl, rfl, rfl, rfl, rfl, id⟩
      · refine ⟨_, ?_, .inl heq⟩
        exact ⟨rfl, rfl, rfl, rfl, rfl, id⟩
  | acceptedBlock b =>
      refine ⟨_, ?_, .inr rfl⟩
      split <;> exact ⟨rfl, rfl, rfl, rfl, rfl, id⟩
  | pendingBlockIds ids lib => cases he
  | asyncGetBlock nextblock => cases he
  | write failed => cases he
  | message msg =>
      simp only [react]
      unfold onMessage
      dsimp only
      split
      · next s₁ hon =>
          obtain ⟨hstate, hbuffer, hfetching, hsent, hhello, hclosed⟩ := quiet_on hon
          exact ⟨s₁, ⟨hstate, hbuffer, hfetching, hsent, hhello, hclosed⟩, .inr rfl⟩
      · refine ⟨_, ?_, .inl rfl⟩
        exact ⟨rfl, rfl, rfl, rfl, rfl, fun _ => rfl⟩
  | fail => exact ⟨_, quiet_doGoodbye s, .inl rfl⟩

/-- While the session is sending, only a callback touches the socket. -/
theorem quiet_react (hstate : s.state = .sending) (he : e.isCallback = false) :
    Quiet s (s.react ext now e) := by
  obtain ⟨s₁, hquiet, heq | heq⟩ := react_cases ext now s he
  · rw [heq]
    exact hquiet
  · rw [heq, maybeSendNextMessage, if_pos (hquiet.state.trans hstate)]
    exact hquiet

/-! ### The phases of the socket -/

/-- The socket is free, unless it has failed; or a block is fetched, to be sent next; or the
message in the buffer is being written, and it is the last one sent. -/
inductive Phase (s : Session) (written : ℕ) : Prop
  | free (hsent : s.sent.length = written) (hfetching : s.fetching = none)
      (hbuffer : s.outBuffer = none ∨ s.closed)
  | fetching (hstate : s.state = .sending) (hsent : s.sent.length = written)
      (hfetching : s.fetching.isSome) (hbuffer : s.outBuffer = none)
      (hhello : s.sentRemoteHello)
  | writing (hstate : s.state = .sending) (hfetching : s.fetching = none)
      (hhello : s.sentRemoteHello) (before : List BnetMessage) (msg : BnetMessage)
      (hsent : s.sent = before ++ [msg]) (hbefore : before.length = written)
      (hbuffer : s.outBuffer = some msg)

theorem Phase.quiet (h : Phase s written) (hquiet : Quiet s s') : Phase s' written := by
  obtain ⟨hstate', hbuffer', hfetching', hsent', hhello', hclosed⟩ := hquiet
  cases h with
  | free hsent hfetching hbuffer =>
      exact .free (hsent' ▸ hsent) (hfetching'.trans hfetching)
        (hbuffer.imp hbuffer'.trans hclosed)
  | fetching hstate hsent hfetching hbuffer hhello =>
      exact .fetching (hstate'.trans hstate) (hsent' ▸ hsent) (hfetching' ▸ hfetching)
        (hbuffer'.trans hbuffer) (hhello'.trans hhello)
  | writing hstate hfetching hhello before msg hsent hbefore hbuffer =>
      exact .writing (hstate'.trans hstate) (hfetching'.trans hfetching) (hhello'.trans hhello)
        before msg (hsent'.trans hsent) hbefore (hbuffer'.trans hbuffer)

/-- Sending out of a free session starts the only write. -/
theorem phase_send {s : Session} (hsent : s.sent.length = written) (hfetching : s.fetching = none)
    (hhello : s.sentRemoteHello) (msg : BnetMessage) : Phase (s.send msg) written :=
  .writing rfl hfetching hhello s.sent msg rfl hsent rfl

theorem Phase.maybeSendNextMessage (h : Phase s written) :
    Phase (s.maybeSendNextMessage ext now) written := by
  obtain ⟨-, heq⟩ | ⟨hfree, hnext⟩ := maybeSendNextMessage_cases ext now s
  · rwa [heq]
  · have hidle : s.state ≠ .sending := fun hstate => hfree (.inl hstate)
    cases h with
    | fetching hstate => exact absurd hstate hidle
    | writing hstate => exact absurd hstate hidle
    | free hsent hfetching hbuffer =>
        have hhello : s.sentRemoteHello = true := by
          by_contra hno
          exact hfree (.inr (.inr (.inr (Bool.eq_false_iff.mpr hno))))
        have hempty : s.outBuffer = none := by
          by_contra hsome
          exact hfree (.inr (.inl (Option.isSome_iff_ne_none.mpr hsome)))
        have hrest : Phase (s.clearExpiredTrx now) written := .free hsent hfetching hbuffer
        have hsend : ∀ s₁ : Session, Quiet (s.clearExpiredTrx now) s₁ → ∀ msg,
            Phase (s₁.send msg) written := fun s₁ hquiet =>
          phase_send (hquiet.sent ▸ hsent) (hquiet.fetching.trans hfetching)
            (hquiet.sentRemoteHello.trans hhello)
        generalize s.maybeSendNextMessage ext now = s' at hnext ⊢
        cases hnext with
        | notice => exact (hsend _ (.refl _) _).quiet ⟨rfl, rfl, rfl, rfl, rfl, id⟩
        | pong => exact (hsend _ (.refl _) _).quiet ⟨rfl, rfl, rfl, rfl, rfl, id⟩
        | ping =>
            refine hsend _ ?_ _
            exact ⟨rfl, rfl, rfl, rfl, rfl, id⟩
        | unanswered => exact hrest
        | unknown => exact hrest
        | fetch => exact .fetching rfl hsent rfl hempty hhello
        | trx =>
            refine hsend _ ?_ _
            exact ⟨rfl, rfl, rfl, rfl, rfl, id⟩
        | nothing => exact hrest

theorem phase_onAsyncGetBlock (hsent : s.sent.length = written) (hbuffer : s.outBuffer = none)
    (hhello : s.sentRemoteHello) (nextblock : Option SignedBlock) :
    Phase ({ s with fetching := none }.onAsyncGetBlock ext now nextblock) written := by
  cases nextblock with
  | none => exact .maybeSendNextMessage (.free hsent rfl (.inl hbuffer))
  | some b =>
      unfold onAsyncGetBlock
      dsimp only
      split
      · exact .maybeSendNextMessage (.free hsent rfl (.inl hbuffer))
      · split
        · exact .maybeSendNextMessage (.free hsent rfl (.inl hbuffer))
        · have hmarked := (marked_markBlockStatus ext { s with fetching := none } b.id true false).quiet
          have hsend : Phase
              ({ ({ s with fetching := none }.markBlockStatus ext b.id true false) with
                lastSentBlockId := b.id
                lastSentBlockNum := ext.numFromId b.id }.send (.signedBlock (some b))) written :=
            phase_send (s := { ({ s with fetching := none }.markBlockStatus ext b.id true false) with
                lastSentBlockId := b.id
                lastSentBlockNum := ext.numFromId b.id })
              (hmarked.sent ▸ hsent) hmarked.fetching (hmarked.sentRemoteHello.trans hhello) _
          split
          · exact hsend.quiet (marked_markBlockTransactionsKnownByPeer now _ b).quiet
          · exact hsend

end Session

namespace Writer

open Session (Phase Quiet)

variable {ext : Externals} {now : Time} {w w' : Writer} {e : Event}

theorem step_eq_ok (h : w.step ext (now, e) = .ok w') :
    w.due e ∧ w'.session = w.session.react ext now e ∧
      w'.written = w.written + e.writesCompleted := by
  obtain ⟨hdue, rfl⟩ := Rollback.ite_ok_eq_ok.mp h
  exact ⟨hdue, rfl, rfl⟩

theorem outstanding_of_writing {before : List BnetMessage} {msg : BnetMessage}
    (hsent : w.session.sent = before ++ [msg]) (hbefore : before.length = w.written) :
    w.outstanding = [msg] := by
  rw [outstanding, hsent, ← hbefore, List.drop_left]

theorem outstanding_eq_nil (hsent : w.session.sent.length = w.written) : w.outstanding = [] := by
  rw [outstanding, ← hsent, List.drop_length]

/-- What is due of the callbacks belongs to the phase that the socket is in. -/
theorem phase_step (hw : Phase w.session w.written) (h : w.step ext (now, e) = .ok w') :
    Phase w'.session w'.written := by
  obtain ⟨hdue, hsession, hwritten⟩ := step_eq_ok h
  rw [hsession, hwritten]
  by_cases hcallback : e.isCallback = false
  · have hnone : e.writesCompleted = 0 := by
      cases e <;> first | rfl | cases hcallback
    obtain ⟨s₁, hquiet, heq | heq⟩ := Session.react_cases ext now w.session hcallback
    · rw [heq, hnone]
      exact hw.quiet hquiet
    · rw [heq, hnone]
      exact (hw.quiet hquiet).maybeSendNextMessage
  · cases e with
    | pendingBlockIds ids lib =>
        have hfirst : w.session.sentRemoteHello = false := by simpa [due] using hdue
        cases hw with
        | fetching _ _ _ _ hhello => rw [hfirst] at hhello; cases hhello
        | writing _ _ hhello => rw [hfirst] at hhello; cases hhello
        | free hsent hfetching hbuffer =>
            exact .writing rfl hfetching rfl w.session.sent _ rfl hsent rfl
    | asyncGetBlock nextblock =>
        cases hw with
        | free _ hfetching => simp [due, hfetching] at hdue
        | writing _ hfetching => simp [due, hfetching] at hdue
        | fetching _ hsent _ hbuffer hhello =>
            exact Session.phase_onAsyncGetBlock hsent hbuffer hhello nextblock
    | write failed =>
        cases hw with
        | free hsent => simp [due, outstanding_eq_nil hsent] at hdue
        | fetching _ hsent => simp [due, outstanding_eq_nil hsent] at hdue
        | writing hstate hfetching hhello before msg hsent hbefore hbuffer =>
            have hdone : w.session.sent.length = w.written + 1 := by
              rw [hsent, List.length_append, hbefore]
              rfl
            simp only [Session.react, Event.writesCompleted]
            unfold Session.onWrite
            split
            · exact .free hdone hfetching (.inr rfl)
            · exact .maybeSendNextMessage (.free hdone hfetching (.inl rfl))
    | _ => exact absurd rfl hcallback

theorem phase_run (ext : Externals) (es : List (Time × Event)) :
    Phase (Rollback.run (step ext) {} es).session (Rollback.run (step ext) {} es).written :=
  Rollback.run_induction (I := fun w : Writer => Phase w.session w.written)
    (fun _ (_, _) _ hw hok => phase_step hw hok) es (.free rfl rfl (.inl rfl))

/-! ### Sessions whose socket is open -/

/-- A session that takes an event as long as it is open takes it here. -/
theorem step_of_session {s : Session} (hw : Phase w.session w.written)
    (h : w.session.step ext (now, e) = .ok s) :
    ∃ w', w.step ext (now, e) = .ok w' ∧ w'.session = s := by
  obtain ⟨hopen, htakes⟩ := Session.takes_of_step h
  have hdue : w.due e = true ∧ w.session.react ext now e = s := by
    cases htakes with
    | pendingBlockIds ids lib hhello => exact ⟨by simp [due, hhello], rfl⟩
    | asyncGetBlock nextblock hfetching => exact ⟨hfetching, rfl⟩
    | write failed hsome =>
        refine ⟨?_, rfl⟩
        cases hw with
        | free _ _ hbuffer =>
            obtain hnone | hclosed := hbuffer
            · simp [hnone] at hsome
            · simp [hopen] at hclosed
        | fetching _ _ _ hnone => simp [hnone] at hsome
        | writing _ _ _ before msg hsent hbefore =>
            simp [due, outstanding_of_writing hsent hbefore]
    | _ => exact ⟨rfl, rfl⟩
  exact ⟨_, if_pos hdue.1, hdue.2⟩

/-- What an open session does in a run is what it does here. -/
theorem session_run (ext : Externals) (es : List (Time × Event)) :
    ∃ es', (Rollback.run (step ext) {} es').session = Rollback.run (Session.step ext) {} es := by
  have hstep : ∀ (s : Session) (w : Writer) (e : Time × Event) (s' : Session),
      (w.session = s ∧ Phase w.session w.written) → True → s.step ext e = .ok s' → True →
      ∃ e' w', e = e' ∧ w.step ext e' = .ok w' ∧
        w'.session = s' ∧ Phase w'.session w'.written := by
    rintro _ w ⟨_, _⟩ s' ⟨rfl, hw⟩ - hok -
    obtain ⟨w', hok', hsession⟩ := step_of_session hw hok
    exact ⟨_, w', rfl, hok', hsession, phase_step hw hok'⟩
  have hfresh : Phase ({} : Writer).session ({} : Writer).written := .free rfl rfl (.inl rfl)
  have halong : Rollback.Along (Session.step ext) (fun _ _ _ => True) {} es :=
    Rollback.along_of fun _ _ _ _ => trivial
  obtain ⟨es', -, hrun, -⟩ := Rollback.run_simulation hstep (fun _ (_ : _ ∈ es) => trivial)
    halong ⟨rfl, hfresh⟩
  exact ⟨es', hrun⟩

/-! ### One write at a time -/

/-- The callback that the socket waits for is the only event that changes what is in the
buffer or starts a write. -/
theorem quiet_of_writing (hw : Phase w.session w.written) (h : w.step ext (now, e) = .ok w')
    (houtstanding : w.outstanding ≠ []) (he : ∀ failed, e ≠ .write failed) :
    Quiet w.session w'.session ∧ w'.written = w.written := by
  obtain ⟨hdue, hsession, hwritten⟩ := step_eq_ok h
  cases hw with
  | free hsent => exact absurd (outstanding_eq_nil hsent) houtstanding
  | fetching _ hsent => exact absurd (outstanding_eq_nil hsent) houtstanding
  | writing hstate hfetching hhello =>
      cases e with
      | pendingBlockIds ids lib => simp [due, hhello] at hdue
      | asyncGetBlock nextblock => simp [due, hfetching] at hdue
      | write failed => exact absurd rfl (he failed)
      | _ => exact ⟨hsession ▸ Session.quiet_react hstate rfl, hwritten⟩

theorem quiet_of_fetching (hw : Phase w.session w.written) (h : w.step ext (now, e) = .ok w')
    (hfetching : w.session.fetching.isSome) (he : ∀ nextblock, e ≠ .asyncGetBlock nextblock) :
    Quiet w.session w'.session := by
  obtain ⟨hdue, hsession, -⟩ := step_eq_ok h
  cases hw with
  | free _ hnone => simp [hnone] at hfetching
  | writing _ hnone => simp [hnone] at hfetching
  | fetching hstate hsent _ _ hhello =>
      cases e with
      | pendingBlockIds ids lib => simp [due, hhello] at hdue
      | asyncGetBlock nextblock => exact absurd rfl (he nextblock)
      | write failed => simp [due, outstanding_eq_nil hsent] at hdue
      | _ => exact hsession ▸ Session.quiet_react hstate rfl

/-- At most one write is under way, of the message in the buffer, and none while a block is
fetched.  Until the write is completed the buffer stays as it is, and until the block has come
nothing is packed. -/
theorem one_write (ext : Externals) (es : List (Time × Event)) :
    let w := Rollback.run (step ext) {} es
    w.outstanding.length ≤ 1 ∧
      (∀ msg ∈ w.outstanding, w.session.outBuffer = some msg) ∧
      (w.session.fetching.isSome → w.outstanding = []) ∧
      ∀ now e w', w.step ext (now, e) = .ok w' →
        (w.outstanding ≠ [] → (∀ failed, e ≠ .write failed) →
          w'.session.outBuffer = w.session.outBuffer ∧ w'.outstanding = w.outstanding) ∧
        (w.session.fetching.isSome → (∀ nextblock, e ≠ .asyncGetBlock nextblock) →
          w'.session.outBuffer = w.session.outBuffer ∧ w'.session.sent = w.session.sent) := by
  intro w
  have hw : Phase w.session w.written := phase_run ext es
  refine ⟨?_, ?_, ?_, fun now e w' hok => ⟨fun houtstanding he => ?_, fun hfetching he => ?_⟩⟩
  · cases hw with
    | free hsent => exact (outstanding_eq_nil hsent) ▸ Nat.zero_le 1
    | fetching _ hsent => exact (outstanding_eq_nil hsent) ▸ Nat.zero_le 1
    | writing _ _ _ before msg hsent hbefore =>
        exact (outstanding_of_writing hsent hbefore) ▸ Nat.le_refl 1
  · intro msg hmsg
    cases hw with
    | free hsent => rw [outstanding_eq_nil hsent] at hmsg; cases hmsg
    | fetching _ hsent => rw [outstanding_eq_nil hsent] at hmsg; cases hmsg
    | writing _ _ _ before msg' hsent hbefore hbuffer =>
        rw [outstanding_of_writing hsent hbefore, List.mem_singleton] at hmsg
        rw [hmsg, hbuffer]
  · intro hfetching
    cases hw with
    | free _ hnone => simp [hnone] at hfetching
    | fetching _ hsent => exact outstanding_eq_nil hsent
    | writing _ hnone => simp [hnone] at hfetching
  · obtain ⟨hquiet, hwritten⟩ := quiet_of_writing hw hok houtstanding he
    exact ⟨hquiet.outBuffer, by rw [outstanding, outstanding, hquiet.sent, hwritten]⟩
  · have hquiet := quiet_of_fetching hw hok hfetching he
    exact ⟨hquiet.outBuffer, hquiet.sent⟩

end Writer

end Xidata.Bnet
