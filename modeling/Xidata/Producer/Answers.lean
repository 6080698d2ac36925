import Mathlib.Algebra.Ring.Int.Defs
import Xidata.Library.QueueRound
import Xidata.Library.Rollback
import Xidata.Producer.Incoming

/-!
Every incoming transaction is answered once.  Its callback has run, or it is in the queue,
and never both: an entry that is taken from the queue is either answered or put back at the
end.  A block that is started takes no more entries than were queued before, so that it
does not come to the ones that are put back.
-/

namespace Xidata.Producer

open Net (PublicKey)
open QueueRound (Round)

namespace Intake

variable {χ ω : Type} {c : Controller χ} {s s' s₀ : Intake χ ω} {e : Incoming} {orig : ℕ}

/-- How often the `k`-th callback has run or is queued. -/
def accounted (s : Intake χ ω) (k : ℕ) : ℕ :=
  (s.answers.map Prod.fst).count k + (s.pendingIncomingTransactions.map Incoming.next).count k

/-! ### One transaction -/

/-- Nothing happens to the queue. -/
structure Frame (s s' : Intake χ ω) : Prop where
  pending : s'.pendingIncomingTransactions = s.pendingIncomingTransactions
  answers : s'.answers = s.answers
  submitted : s'.submitted = s.submitted
  handled : s'.handled = s.handled

/-- The transaction of `e` is answered or goes to the end of the queue. -/
structure Disposes (s : Intake χ ω) (e : Incoming) (s' : Intake χ ω) : Prop where
  submitted : s'.submitted = s.submitted
  handled : s'.handled = s.handled
  disposed :
    s'.answers.map Prod.fst = s.answers.map Prod.fst ++ [e.next] ∧
        s'.pendingIncomingTransactions = s.pendingIncomingTransactions ∨
      s'.answers = s.answers ∧
        s'.pendingIncomingTransactions = s.pendingIncomingTransactions ++ [e]

theorem Frame.queue (h : Frame s s') (e : Incoming) : Disposes s e (s'.queue e) :=
  ⟨h.submitted, h.handled, .inr ⟨h.answers, congrArg (· ++ [e]) h.pending⟩⟩

theorem Frame.sendResponse (h : Frame s s') (e : Incoming) (response : Option ChainException) :
    Disposes s e (s'.sendResponse e response) := by
  refine ⟨h.submitted, h.handled, .inl ⟨?_, h.pending⟩⟩
  rw [Intake.sendResponse, h.answers, List.map_append]
  rfl

theorem frame_persist (s : Intake χ ω) (e : Incoming) : Frame s (s.persist e) := by
  unfold persist
  split <;> exact ⟨rfl, rfl, rfl, rfl⟩

theorem onIncoming_disposes (c : Controller χ) (s : Intake χ ω) (e : Incoming) :
    Disposes s e (onIncomingTransactionAsync c s e) := by
  have hself : Frame s s := ⟨rfl, rfl, rfl, rfl⟩
  unfold onIncomingTransactionAsync
  cases s.plugin.pending with
  | none => exact hself.queue e
  | some pbs =>
      dsimp only
      split
      · exact hself.sendResponse e _
      split
      · exact hself.sendResponse e _
      -- Pushing the transaction changes the chain only.
      generalize hs' : ({ s.tick c with chain := _ } : Intake χ ω) = s'
      have hpushed : Frame s s' := by
        rw [← hs']
        exact ⟨rfl, rfl, rfl, rfl⟩
      split
      · exact hpushed.sendResponse e _
      · split
        · exact hpushed.queue e
        · exact hpushed.sendResponse e _
      · obtain ⟨hpending, hanswers, hsubmitted, hhandled⟩ := frame_persist s' e
        have hpersist : Frame s (s'.persist e) :=
          ⟨hpending.trans hpushed.pending, hanswers.trans hpushed.answers,
            hsubmitted.trans hpushed.submitted, hhandled.trans hpushed.handled⟩
        exact hpersist.sendResponse e none

theorem Disposes.accounted (h : Disposes s e s') (k : ℕ) :
    s'.accounted k = s.accounted k + if e.next = k then 1 else 0 := by
  have hone : [e.next].count k = if e.next = k then 1 else 0 := by
    rw [List.count_singleton]
    simp only [beq_iff_eq]
  unfold Intake.accounted
  obtain ⟨hanswers, hpending⟩ | ⟨hanswers, hpending⟩ := h.disposed
  · rw [hanswers, hpending, List.count_append, hone]
    omega
  · rw [hanswers, hpending, List.map_append, List.count_append, List.map_singleton, hone]
    omega

/-! ### A block that is started -/

/-- Since `s₀` entries have been taken from the queue, up to `orig` more will be, and the
callbacks are accounted for as before. -/
structure Draining (s₀ s : Intake χ ω) (orig : ℕ) : Prop where
  round : Round s₀.pendingIncomingTransactions s.handled s.pendingIncomingTransactions
  left : s.handled.length + orig = s₀.pendingIncomingTransactions.length
  accounted : ∀ k, s.accounted k = s₀.accounted k
  submitted : s.submitted = s₀.submitted

theorem Draining.frame (h : Draining s₀ s orig) (hframe : Frame s s') : Draining s₀ s' orig where
  round := by
    rw [hframe.handled, hframe.pending]
    exact h.round
  left := by
    rw [hframe.handled]
    exact h.left
  accounted k := by
    rw [Intake.accounted, hframe.answers, hframe.pending]
    exact h.accounted k
  submitted := hframe.submitted.trans h.submitted

theorem Draining.tick (h : Draining s₀ s orig) (c : Controller χ) : Draining s₀ (s.tick c) orig :=
  h.frame ⟨rfl, rfl, rfl, rfl⟩

theorem Draining.setWeight (h : Draining s₀ s orig) (weight : ω) :
    Draining s₀ (s.setWeight weight) orig :=
  h.frame ⟨rfl, rfl, rfl, rfl⟩

theorem Draining.handle {rest : List Incoming} (h : Draining s₀ s (orig + 1))
    (hqueue : s.pendingIncomingTransactions = e :: rest) :
    Draining s₀ (Intake.handle c s e rest) orig := by
  have hdisposes := onIncoming_disposes c
    { s with pendingIncomingTransactions := rest, handled := s.handled ++ [e] } e
  have hleft : s.handled.length + (orig + 1) = s₀.pendingIncomingTransactions.length := h.left
  have hround : Round s₀.pendingIncomingTransactions s.handled (e :: rest) := by
    rw [← hqueue]
    exact h.round
  refine ⟨?_, ?_, fun k => ?_, hdisposes.submitted.trans h.submitted⟩
  · rw [Intake.handle, hdisposes.handled]
    obtain ⟨-, hpending⟩ | ⟨-, hpending⟩ := hdisposes.disposed
    · rw [hpending]
      exact hround.take (by omega)
    · rw [hpending]
      exact hround.putBack (by omega)
  · rw [Intake.handle, hdisposes.handled, List.length_append, List.length_singleton]
    omega
  -- The entry is counted in the queue before and as answered or put back after.
  · rw [Intake.handle, hdisposes.accounted, ← h.accounted k, Intake.accounted, Intake.accounted,
      hqueue, List.map_cons, List.count_cons]
    simp only [beq_iff_eq]
    omega

theorem Draining.drainWeighted [One ω] [Sub ω] [LE ω] [DecidableLE ω]
    (h : Draining s₀ s orig) :
    Draining s₀ (Intake.drainWeighted c orig s).2 (Intake.drainWeighted c orig s).1 := by
  induction orig generalizing s with
  | zero => exact h
  | succ orig ih =>
      rw [Intake.drainWeighted]
      split
      · split
        · exact h
        · rename_i hqueue
          exact ih ((h.setWeight _).handle hqueue)
      · exact h

theorem frame_applyUnapplied (blockTime : ℤ) (trxs : List Transaction) (exhausted : Bool)
    (s : Intake χ ω) : Frame s (applyUnapplied c blockTime trxs exhausted s).2 := by
  induction trxs generalizing exhausted s with
  | nil => exact ⟨rfl, rfl, rfl, rfl⟩
  | cons trx trxs ih =>
      rw [applyUnapplied]
      split
      · exact ⟨rfl, rfl, rfl, rfl⟩
      · dsimp only
        split
        · split
          · obtain ⟨hpending, hanswers, hsubmitted, hhandled⟩ := ih true _
            exact ⟨hpending, hanswers, hsubmitted, hhandled⟩
          · obtain ⟨hpending, hanswers, hsubmitted, hhandled⟩ := ih false _
            exact ⟨hpending, hanswers, hsubmitted, hhandled⟩
        · obtain ⟨hpending, hanswers, hsubmitted, hhandled⟩ := ih false _
          exact ⟨hpending, hanswers, hsubmitted, hhandled⟩

theorem frame_processUnapplied (blockTime : ℤ) (s : Intake χ ω) :
    Frame s (processUnapplied c blockTime s).2 := by
  unfold processUnapplied
  split
  · exact ⟨rfl, rfl, rfl, rfl⟩
  · obtain ⟨hpending, hanswers, hsubmitted, hhandled⟩ := frame_applyUnapplied (c := c) blockTime
      _ false { s with chain := _ }
    exact ⟨hpending, hanswers, hsubmitted, hhandled⟩

theorem frame_pushScheduled (s : Intake χ ω) (blockTime : ℤ) (trx : TransactionId) :
    Frame s (s.pushScheduled c blockTime trx).2 := by
  unfold pushScheduled
  dsimp only
  split
  · split <;> exact ⟨rfl, rfl, rfl, rfl⟩
  · exact ⟨rfl, rfl, rfl, rfl⟩

theorem Draining.drainIncoming (h : Draining s₀ s orig) (blockTime : ℤ) :
    ∃ left, Draining s₀ (Intake.drainIncoming c blockTime orig s).2 left := by
  induction orig generalizing s with
  | zero => exact ⟨0, h⟩
  | succ orig ih =>
      rw [Intake.drainIncoming]
      split
      · exact ⟨orig + 1, h⟩
      · rename_i hqueue
        have hhandled : Draining s₀ _ orig := h.handle (c := c) hqueue
        dsimp only
        split
        · exact ⟨orig, hhandled.tick c⟩
        · exact ih (hhandled.tick c)

/-- The loop ends normally only if the queue it started with has been taken to its end. -/
theorem Draining.handled_of_succeeded (h : Draining s₀ s orig) {blockTime : ℤ}
    (hend : (Intake.drainIncoming c blockTime orig s).1 = .succeeded) :
    (Intake.drainIncoming c blockTime orig s).2.handled.length =
      s₀.pendingIncomingTransactions.length := by
  induction orig generalizing s with
  | zero => exact h.left
  | succ orig ih =>
      rw [Intake.drainIncoming] at hend ⊢
      split
      · rename_i hqueue
        have hround := h.round
        rw [hqueue] at hround
        exact hround.length_of_nil
      · rename_i hqueue
        have hhandled : Draining s₀ _ orig := h.handle (c := c) hqueue
        rw [hqueue] at hend
        dsimp only at hend ⊢
        split
        · rename_i hlate
          rw [if_pos hlate] at hend
          cases hend
        · rename_i hearly
          rw [if_neg hearly] at hend
          exact ih (hhandled.tick c) hend

section Weight

variable [Zero ω] [One ω] [Add ω] [Sub ω] [LE ω] [DecidableLE ω]

theorem Draining.applyScheduled (h : Draining s₀ s orig) (blockTime : ℤ)
    (trxs : List TransactionId) (exhausted : Bool) :
    Draining s₀ (Intake.applyScheduled c blockTime trxs orig exhausted s).2.2
      (Intake.applyScheduled c blockTime trxs orig exhausted s).1 := by
  induction trxs generalizing s orig exhausted with
  | nil => exact h
  | cons trx trxs ih =>
      rw [Intake.applyScheduled]
      split
      · exact h.tick c
      · have hdrained := (h.tick c).drainWeighted (c := c)
        dsimp only
        split
        · exact hdrained.tick c
        · split
          · exact ih (hdrained.tick c) false
          · have hpushed := (hdrained.tick c).frame (frame_pushScheduled (c := c) _ blockTime trx)
            exact ih (hpushed.setWeight _) _

theorem Draining.processScheduled (h : Draining s₀ s orig) (blockTime : ℤ) (exhausted : Bool) :
    Draining s₀ (Intake.processScheduled c blockTime orig exhausted s).2.2
      (Intake.processScheduled c blockTime orig exhausted s).1 := by
  unfold Intake.processScheduled
  dsimp only
  split
  · have hexpired : Draining s₀ ((s.tick c).expireBlacklisted (s.clock c)) orig :=
      (h.tick c).frame ⟨rfl, rfl, rfl, rfl⟩
    exact hexpired.applyScheduled blockTime _ exhausted
  · exact h

theorem processTransactions_draining (c : Controller χ) (blockTime : ℤ) (h : s.handled = []) :
    ∃ left, Draining s (processTransactions c blockTime s).2 left ∧
      ((processTransactions c blockTime s).1 = .succeeded →
        (processTransactions c blockTime s).2.handled.length =
          s.pendingIncomingTransactions.length) := by
  have hstart : Draining s s s.pendingIncomingTransactions.length := by
    refine ⟨?_, ?_, fun _ => rfl, rfl⟩
    · rw [h]
      exact Round.begin _
    · rw [h, List.length_nil, Nat.zero_add]
  have hexpired : Draining s (s.expirePersisted blockTime) s.pendingIncomingTransactions.length :=
    hstart.frame ⟨rfl, rfl, rfl, rfl⟩
  have hunapplied := hexpired.frame (frame_processUnapplied (c := c) blockTime _)
  have hscheduled := hunapplied.processScheduled (c := c) blockTime
    (processUnapplied c blockTime (s.expirePersisted blockTime)).1
  have hready := (hscheduled.tick c).setWeight 0
  unfold processTransactions
  dsimp only
  split
  · exact ⟨_, hscheduled, fun hend => by cases hend⟩
  · split
    · exact ⟨_, hscheduled.tick c, fun hend => by cases hend⟩
    · obtain ⟨left, hdrained⟩ := hready.drainIncoming (c := c) blockTime
      exact ⟨left, hdrained, hready.handled_of_succeeded⟩

/-- A block that is started keeps the account of every callback, and handles the first
entries of the queue. -/
theorem startBlock_draining (c : Controller χ) (s : Intake χ ω) (now : ℤ) (key : Option PublicKey) :
    ∃ left, Draining { s with handled := [] } (s.startBlock c now key).2 left ∧
      ((s.startBlock c now key).1 = .succeeded →
        (s.startBlock c now key).2.handled.length = s.pendingIncomingTransactions.length) := by
  have hstart : Draining { s with handled := [] } (s.startPlugin now key)
      s.pendingIncomingTransactions.length :=
    ⟨Round.begin _, Nat.zero_add _, fun _ => rfl, rfl⟩
  unfold startBlock
  dsimp only
  split
  · exact ⟨_, hstart, fun hend => by cases hend⟩
  · split
    · exact ⟨_, hstart, fun hend => by cases hend⟩
    · obtain ⟨left, h, hall⟩ := processTransactions_draining (s := s.startPlugin now key) c _ rfl
      exact ⟨left, ⟨h.round, h.left, h.accounted, h.submitted⟩, hall⟩

/-- A block that is neither late nor full has handled all that was queued, in order. -/
theorem handled_of_succeeded {now : ℤ} {key : Option PublicKey}
    (hend : (s.startBlock c now key).1 = .succeeded) :
    (s.startBlock c now key).2.handled = s.pendingIncomingTransactions := by
  obtain ⟨left, hdraining, hall⟩ := startBlock_draining c s now key
  exact hdraining.round.isPrefix.eq_of_length (hall hend)

end Weight

/-! ### Runs -/

/-- The callbacks that have been handed in are accounted for once, and no others. -/
def Balanced (s : Intake χ ω) : Prop := ∀ k, s.accounted k = if k < s.submitted then 1 else 0

theorem Balanced.of_eq (h : Balanced s) (hsame : ∀ k, s'.accounted k = s.accounted k)
    (hsubmitted : s'.submitted = s.submitted) : Balanced s' := fun k => by
  rw [hsame, hsubmitted]
  exact h k

theorem Balanced.submit (h : Balanced s) (trx : Transaction) (persistUntilExpired : Bool) :
    Balanced (onIncomingTransactionAsync c { s with submitted := s.submitted + 1 }
      ⟨trx, persistUntilExpired, s.submitted⟩) := by
  intro k
  have hdisposes := onIncoming_disposes c { s with submitted := s.submitted + 1 }
    ⟨trx, persistUntilExpired, s.submitted⟩
  have hbefore : ({ s with submitted := s.submitted + 1 } : Intake χ ω).accounted k =
      if k < s.submitted then 1 else 0 := h k
  rw [hdisposes.accounted, hdisposes.submitted, hbefore]
  dsimp only
  split_ifs <;> omega

section Runs

variable [Zero ω] [One ω] [Add ω] [Sub ω] [LE ω] [DecidableLE ω]

theorem Balanced.step {ev : IntakeEvent χ ω} (h : Balanced s) (hstep : s.step c ev = .ok s') :
    Balanced s' := by
  cases ev with
  | submit trx persistUntilExpired =>
      cases hstep
      exact h.submit trx persistUntilExpired
  | startBlock now key =>
      cases hstep
      obtain ⟨left, hdraining, -⟩ := startBlock_draining c s now key
      exact h.of_eq hdraining.accounted hdraining.submitted
  | plugin e =>
      cases e with
      | startBlock now key => cases hstep
      | _ =>
          obtain ⟨plugin, -, rfl⟩ := Rollback.map_eq_ok.mp hstep
          exact h
  | chain chain =>
      cases hstep
      exact h
  | updateRuntimeOptions maxTransactionTimeMs incomingDeferRatio =>
      cases hstep
      exact h

/-- In every state, each callback that has been handed in has run once or is queued once; and
a block that is started there handles the first entries of the queue, each once. -/
theorem answered_once (c : Controller χ) (hanswers : s.answers = [])
    (hpending : s.pendingIncomingTransactions = []) (hsubmitted : s.submitted = 0)
    (es : List (IntakeEvent χ ω)) :
    ∀ t ∈ Rollback.trace (step c) s es,
      (∀ k < t.submitted, (t.answers.map Prod.fst).count k +
        (t.pendingIncomingTransactions.map Incoming.next).count k = 1) ∧
      ∀ now key, Round t.pendingIncomingTransactions (t.startBlock c now key).2.handled
        (t.startBlock c now key).2.pendingIncomingTransactions := by
  have hbalanced : Balanced s := fun k => by
    rw [accounted, hanswers, hpending, hsubmitted]
    rfl
  have htrace : ∀ t ∈ Rollback.trace (step c) s es, Balanced t :=
    Rollback.trace_induction_along (P := fun _ _ _ => True) (fun _ _ _ h hstep _ => h.step hstep)
      (Rollback.along_of fun _ _ _ _ => trivial) hbalanced
  intro t ht
  refine ⟨fun k hk => ?_, fun now key => ?_⟩
  · have hcount := htrace t ht k
    rwa [if_pos hk] at hcount
  · obtain ⟨left, hdraining, -⟩ := startBlock_draining c t now key
    exact hdraining.round

end Runs

/-- A chain whose clock goes on by one with every reading and by 50 with every transaction,
of which the first ones do not fit. -/
def frugalChain : Controller ℤ where
  now t := (t, t + 1)
  isKnownUnexpiredTransaction _ _ := false
  pushTransaction t _ _ :=
    (if t < 50 then .trace (some .blockCpuUsageExceeded) else .trace none, t + 50)
  pushScheduledTransaction t _ _ := (.trace none, t + 50)
  unappliedTransactions _ := []
  scheduledTransactions _ := []
  dropUnappliedTransaction t _ := t
  dropAllUnappliedTransactions t := t
  deferredTrxExpirationWindow _ := 600

/-- Two transactions arrive before there is a block, and the first one does not fit into it. -/
theorem answered_once_put_back :
    let s : Intake ℤ ℤ :=
      { plugin := { producers := [], signatureProviders := [] }
        chain := 0
        incomingTrxWeight := 0
        incomingDeferRatio := 1 }
    let es : List (IntakeEvent ℤ ℤ) :=
      [.submit ⟨7, 1000000⟩ false, .submit ⟨8, 1000000⟩ false, .startBlock 1 (some {})]
    (∀ t ∈ Rollback.trace (step frugalChain) s es,
      (∀ k < t.submitted, (t.answers.map Prod.fst).count k +
        (t.pendingIncomingTransactions.map Incoming.next).count k = 1) ∧
      ∀ now key, Round t.pendingIncomingTransactions (t.startBlock frugalChain now key).2.handled
        (t.startBlock frugalChain now key).2.pendingIncomingTransactions) ∧
      (Rollback.run (step frugalChain) s es).answers = [(1, none)] ∧
      (Rollback.run (step frugalChain) s es).pendingIncomingTransactions =
        [⟨⟨7, 1000000⟩, false, 0⟩] :=
  ⟨answered_once frugalChain rfl rfl rfl _, by decide +kernel, by decide +kernel⟩

end Intake

end Xidata.Producer
