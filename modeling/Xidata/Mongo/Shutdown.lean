import Xidata.Mongo.HandOver

/-!
What the plugin promises of its entries, and how it is shut down.  The destructor sets `done`
and wakes the consume thread without the mutex; only if `done` is set between the test of the
queues and the wait can the consume thread sleep on, with the destructor waiting for its end.
Otherwise it comes to its end in a number of steps of its own that is known beforehand.
-/

namespace Xidata.Mongo

open BatchQueue (ofKind InTurn)

namespace State

variable {cfg : Config} {s s' : State}

/-- The entries that have been processed. -/
def processedItems (s : State) : List Item := s.processed.map Prod.fst

/-- In every interleaving each queue is worked off in order, nothing is lost or processed
twice, and nothing is processed before what was queued earlier in a queue that comes first. -/
theorem processed_in_turn (cfg : Config) (es : List Event) :
    (∀ k, ofKind k (reached cfg es).queued = ofKind k (reached cfg es).processedItems ++
      (reached cfg es).processQueues k ++ (reached cfg es).queues k) ∧
    InTurn (reached cfg es).queued (reached cfg es).processedItems :=
  ⟨(invariant_reached cfg es).orderly.split.fifo, (invariant_reached cfg es).orderly.inTurn⟩

theorem Invariant.ofKind_processedItems (h : s.Invariant cfg) (hdrained : s.Drained) (k : Stream) :
    ofKind k s.processedItems = ofKind k s.queued := by
  have hfifo := h.orderly.split.fifo k
  change ofKind k s.queued = ofKind k s.processedItems ++ s.processQueues k ++ s.queues k at hfifo
  rw [hfifo, hdrained.processQueues k, hdrained.queues k, List.append_nil, List.append_nil]

/-- Once the consume thread has left its loop everything that was queued has been processed,
and no accepted block from the start block on has been passed over. -/
theorem processed_of_finished (cfg : Config) (es : List Event)
    (h : (reached cfg es).consume = .finished) :
    (∀ k, ofKind k (reached cfg es).processedItems = ofKind k (reached cfg es).queued) ∧
    ∀ p ∈ (reached cfg es).processed, cfg.fromStart p.1 → p.2 := by
  have hinv := invariant_reached cfg es
  have hends := (hinv.sound.ends (by rw [h]; rfl)).2
  exact ⟨fun k => hinv.ofKind_processedItems hends k, hinv.caught.processed⟩

/-- The options as they are by default. -/
def defaults : Config where
  maxQueueSize := 1024
  startBlockNum := 0
  isProducer := false
  storeBlocks := true
  storeBlockStates := true
  storeTransactions := true

/-- A block is accepted and gets into its queue while the consume thread is asleep. -/
def oneBlock : List Event :=
  List.replicate 4 .consume ++ [.signal (.acceptedBlock ⟨7, 1⟩)] ++ List.replicate 5 .application

/-- The plugin is shut down; the destructor sets `done` and notifies. -/
def shutDown : List Event := [.shutdown, .application, .application]

theorem processed_of_finished_after_oneBlock :
    (reached defaults (oneBlock ++ shutDown ++ List.replicate 13 .consume)).consume = .finished ∧
    (reached defaults (oneBlock ++ shutDown ++ List.replicate 13 .consume)).processed =
      [(⟨.blockState, ⟨7, 1⟩⟩, true)] ∧
    ∀ k, ofKind k
        (reached defaults (oneBlock ++ shutDown ++ List.replicate 13 .consume)).processedItems =
      ofKind k (reached defaults (oneBlock ++ shutDown ++ List.replicate 13 .consume)).queued :=
  ⟨rfl, rfl, (processed_of_finished defaults _ rfl).1⟩

/-! ### The destructor -/

/-- The destructor has not returned, and neither thread has a next step. -/
def Stuck (cfg : Config) (s : State) : Prop :=
  s.application ≠ .joined ∧ s.step cfg .application = .error () ∧ s.step cfg .consume = .error ()

/-- With `done` set the consume thread is not about to sleep, and if it sleeps it is yet to
be woken. -/
structure Roused (s : State) : Prop where
  suspending : s.consume ≠ .suspending
  waiting : s.consume = .waiting → s.application = .closingNotify

/-- The two threads after `done` has been set. -/
structure Closing (s : State) : Prop where
  sound : s.Sound
  done : s.done
  roused : s.Roused

theorem closed_cases {pc : ApplicationPc} (h : pc.closed) :
    pc = .closingNotify ∨ pc = .joining ∨ pc = .joined := by
  cases pc <;> simp at h ⊢

theorem Closing.application_cases (h : s.Closing) :
    s.application = .closingNotify ∨ s.application = .joining ∨ s.application = .joined :=
  closed_cases (h.sound.closed ▸ h.done)

theorem Closing.applicationStep (h : s.Closing) (hs : s.step cfg .application = .ok s') :
    s'.Closing := by
  have hsound : s'.Sound := h.sound.step hs
  obtain ⟨c, hne, hc, hnotify⟩ := notifyOne_eq s
  simp only [State.step, State.applicationStep, hnotify] at hs
  obtain hpc | hpc | hpc := h.application_cases <;> rw [hpc] at hs
  · obtain rfl := Except.ok.inj hs
    refine ⟨hsound, h.done, ?_, fun hw => absurd hw hne⟩
    obtain rfl | ⟨-, rfl⟩ := hc
    · exact h.roused.suspending
    · exact ConsumePc.noConfusion
  · obtain ⟨hend, rfl⟩ := Rollback.ite_ok_eq_ok.mp hs
    refine ⟨hsound, h.done, h.roused.suspending, fun hw => ?_⟩
    change s.consume = .waiting at hw
    rw [hw] at hend
    simp at hend
  · cases hs

/-- The consume thread with a next step to take. -/
theorem Closing.consumeStep (h : s.Closing) (hs : s.step cfg .consume = .ok s') :
    s'.Closing := by
  have hsound : s'.Sound := h.sound.step hs
  -- Most steps only change who is inside and where the thread is.
  have hmove : ∀ m c, c ≠ .suspending → c ≠ .waiting → s' = { s with mtx := m, consume := c } →
      s'.Closing := by
    rintro m c hsuspending hwaiting rfl
    exact ⟨hsound, h.done, hsuspending, fun hw => absurd hw hwaiting⟩
  simp only [State.step, State.consumeStep] at hs
  cases hpc : s.consume with
  | waiting | finished | failed =>
      rw [hpc] at hs
      cases hs
  | suspending => exact absurd hpc h.roused.suspending
  | acquiring | unlocking last =>
      rw [hpc] at hs
      exact hmove _ _ (by simp) (by simp) (Except.ok.inj hs).symm
  | locking | waking =>
      rw [hpc] at hs
      exact hmove _ _ (by simp) (by simp) (lock_eq_ok.mp hs).2.symm
  | testing =>
      rw [hpc] at hs
      refine hmove _ _ ?_ ?_ (Except.ok.inj hs).symm <;> simp [h.done]
  | capturing =>
      rw [hpc] at hs
      obtain rfl := Except.ok.inj hs
      exact ⟨hsound, h.done, by simp [capture], fun hw => by cases hw⟩
  | processing last =>
      rw [hpc] at hs
      have hs := (Except.ok.inj hs).symm
      obtain ⟨k, e, rest, -, -, heq⟩ | ⟨-, heq⟩ := processAll_cases s last <;> rw [heq] at hs
      · obtain rfl := hs
        exact ⟨hsound, h.done, h.roused.suspending, h.roused.waiting⟩
      · refine hmove _ _ ?_ ?_ hs <;> split <;> simp

/-- Of two threads neither of which is inside, each may enter. -/
theorem Sound.mtx_eq_none (h : s.Sound) (happ : s.application.holds = false)
    (hconsume : s.consume.holds = false) : s.mtx = none := by
  cases hmtx : s.mtx with
  | none => rfl
  | some t =>
      cases t with
      | application =>
          exact absurd (h.application_mtx.mp hmtx) (by rw [happ]; exact Bool.false_ne_true)
      | consume => exact absurd (h.consume_mtx.mp hmtx) (by rw [hconsume]; exact Bool.false_ne_true)

theorem Closing.holds_eq_false (h : s.Closing) : s.application.holds = false := by
  obtain hpc | hpc | hpc := h.application_cases <;> rw [hpc] <;> rfl

/-- The consume thread has a next step as long as it has not come to its end and is not asleep. -/
theorem Closing.exists_consumeStep (h : s.Closing) (hwaiting : s.consume ≠ .waiting)
    (hfinished : s.consume ≠ .finished) (hfailed : s.consume ≠ .failed) :
    ∃ s', s.step cfg .consume = .ok s' := by
  have hfree : s.consume.holds = false → s.mtx = none := h.sound.mtx_eq_none h.holds_eq_false
  simp only [State.step, State.consumeStep]
  cases hpc : s.consume with
  | waiting => exact absurd hpc hwaiting
  | finished => exact absurd hpc hfinished
  | failed => exact absurd hpc hfailed
  | locking | waking => exact ⟨_, lock_eq_ok.mpr ⟨hfree (by rw [hpc]; rfl), rfl⟩⟩
  | _ => exact ⟨_, rfl⟩

theorem Closing.not_waiting (h : s.Closing) (hpc : s.application = .joining) :
    s.consume ≠ .waiting := fun hw => by
  have hnotify := h.roused.waiting hw
  rw [hpc] at hnotify
  cases hnotify

theorem Closing.not_stuck (h : s.Closing) : ¬ s.Stuck cfg := by
  rintro ⟨hjoined, happ, hconsume⟩
  have hpc : s.application = .joining := by
    obtain hpc | hpc | hpc := h.application_cases
    · simp [State.step, State.applicationStep, hpc] at happ
    · exact hpc
    · exact absurd hpc hjoined
  simp only [State.step, State.applicationStep, hpc] at happ
  have hend : ¬ (s.consume = .finished ∨ s.consume = .failed) := by
    intro hend
    rw [if_pos hend] at happ
    cases happ
  rw [not_or] at hend
  obtain ⟨s', hs'⟩ : ∃ s', s.step cfg .consume = .ok s' :=
    h.exists_consumeStep (h.not_waiting hpc) hend.1 hend.2
  rw [hconsume] at hs'
  cases hs'

theorem step_closing (h : s.application = .closing) :
    s.step cfg .application = .ok { s with done := true, application := .closingNotify } := by
  simp only [State.step, State.applicationStep, h]

theorem Sound.closing (h : s.Sound) (hpc : s.application = .closing)
    (hsuspending : s.consume ≠ .suspending) :
    Closing { s with done := true, application := .closingNotify } :=
  ⟨h.setDone hpc, rfl, hsuspending, fun _ => rfl⟩

/-- A notification that comes before the wait is lost. -/
theorem stuck_of_suspending (h : s.application = .closing) (hsuspending : s.consume = .suspending) :
    Stuck cfg (Rollback.run (step cfg) s [.application, .application, .consume]) := by
  have hnotify :
      State.step cfg { s with done := true, application := .closingNotify } .application =
        .ok { s with done := true, application := .joining } := by
    simp [State.step, State.applicationStep, notifyOne, hsuspending]
  have hsuspend : State.step cfg { s with done := true, application := .joining } .consume =
      .ok { s with mtx := none, done := true, application := .joining, consume := .waiting } := by
    simp [State.step, State.consumeStep, hsuspending]
  simp only [Rollback.run_cons, Rollback.run_nil, Rollback.push_ok (step_closing h),
    Rollback.push_ok hnotify, Rollback.push_ok hsuspend]
  exact ⟨ApplicationPc.noConfusion, by simp [State.step, State.applicationStep],
    by simp [State.step, State.consumeStep]⟩

/-- The two threads can come to a halt during the shutdown exactly if `done` is set between
the test of the queues and the wait of the consume thread. -/
theorem stuck_iff_done_before_wait (cfg : Config) (es : List Event)
    (h : (reached cfg es).application = .closing) :
    (∃ schedule, (∀ e ∈ schedule, e = .application ∨ e = .consume) ∧
      Stuck cfg (Rollback.run (step cfg) (reached cfg es) (.application :: schedule))) ↔
      (reached cfg es).consume = .suspending := by
  have hsound := (invariant_reached cfg es).sound
  generalize reached cfg es = s at h hsound
  constructor
  · rintro ⟨schedule, hschedule, hstuck⟩
    by_contra hsuspending
    rw [Rollback.run_cons, Rollback.push_ok (step_closing h)] at hstuck
    have hrun := Rollback.along_induction (I := Closing) (P := fun _ _ _ => True)
      (fun s e s' hI he (hs : step cfg s e = .ok s') => ?_) hschedule
      (hsound.closing h hsuspending)
    · exact hrun.1.not_stuck hstuck
    · obtain rfl | rfl := he
      · exact ⟨hI.applicationStep hs, trivial⟩
      · exact ⟨hI.consumeStep hs, trivial⟩
  · exact fun hsuspending => ⟨[.application, .consume], by simp, stuck_of_suspending h hsuspending⟩

theorem stuck_iff_done_before_wait_at_start :
    (reached defaults (List.replicate 3 .consume ++ [.shutdown])).consume = .suspending ∧
    ∃ schedule, (∀ e ∈ schedule, e = .application ∨ e = .consume) ∧
      Stuck defaults (Rollback.run (step defaults)
        (reached defaults (List.replicate 3 .consume ++ [.shutdown])) (.application :: schedule)) :=
  ⟨rfl, (stuck_iff_done_before_wait defaults _ rfl).mpr rfl⟩

/-! ### How long the shutdown takes -/

def backlog (queues : (k : Stream) → List (Entry k)) : ℕ :=
  (queues .transactionTrace).length + (queues .transactionMetadata).length +
    (queues .blockState).length + (queues .irreversibleBlockState).length

/-- The steps to the end of the thread from where it has taken `n` entries over and nothing
waits any more: once around with nothing to take over. -/
def afterCapture (n : ℕ) : ℕ := if n = 0 then 1 else n + 6

/-- The steps that the consume thread takes to its end once `done` is set. -/
def remaining (s : State) : ℕ :=
  match s.consume with
  | .acquiring => 5 + afterCapture (backlog s.queues)
  | .locking | .waking => 4 + afterCapture (backlog s.queues)
  | .testing => 3 + afterCapture (backlog s.queues)
  | .capturing => 2 + afterCapture (backlog s.queues)
  | .unlocking last =>
    1 + if last then 1 else backlog s.processQueues + 5 + afterCapture (backlog s.queues)
  | .processing last =>
    if last then 1 else backlog s.processQueues + 5 + afterCapture (backlog s.queues)
  | .suspending | .waiting | .finished | .failed => 0

theorem backlog_eq_zero {queues : (k : Stream) → List (Entry k)} :
    backlog queues = 0 ↔ ∀ k, queues k = [] := by
  constructor
  · intro h k
    unfold backlog at h
    cases k <;> exact List.eq_nil_of_length_eq_zero (by omega)
  · intro h
    simp [backlog, h]

theorem backlog_update {queues : (k : Stream) → List (Entry k)} {k : Stream} {e : Entry k}
    {rest : List (Entry k)} (h : queues k = e :: rest) :
    backlog (Function.update queues k rest) + 1 = backlog queues := by
  unfold backlog
  cases k <;> simp [h] <;> omega

/-- What is taken over is what has waited. -/
theorem backlog_capture (h : ∀ k, s.processQueues k = []) :
    backlog s.capture.processQueues = backlog s.queues := by
  refine congrArg backlog (funext fun k => ?_)
  change (if s.queues k = [] then s.processQueues k else s.queues k) = s.queues k
  split
  · next hnil => rw [hnil, h k]
  · rfl

theorem Closing.remaining_capture (h : s.Closing) (hpc : s.consume = .capturing) :
    s.capture.remaining + 1 = s.remaining := by
  have hcapture := backlog_capture (h.sound.between (by rw [hpc]; rfl))
  have hwaiting : backlog s.capture.queues = 0 := backlog_eq_zero.mpr fun _ => rfl
  have hpc' : s.capture.consume = .unlocking s.queuesEmpty := rfl
  simp only [remaining, hpc, hpc', hcapture, hwaiting, afterCapture]
  -- A round in which nothing is taken over is the last one.
  cases hempty : s.queuesEmpty with
  | true =>
      have hzero := backlog_eq_zero.mpr (queuesEmpty_iff.mp hempty)
      simp [hzero]
  | false =>
      have hne : backlog s.queues ≠ 0 := fun hzero => by
        rw [queuesEmpty_iff.mpr (backlog_eq_zero.mp hzero)] at hempty
        cases hempty
      simp [hne]
      omega

theorem Closing.remaining_processNext (h : s.Closing) {last : Bool}
    (hpc : s.consume = .processing last) :
    (s.processNext last Stream.all).remaining + 1 = s.remaining := by
  obtain ⟨k, e, rest, hk, -, heq⟩ | ⟨hall, heq⟩ := processAll_cases s last <;> rw [heq]
  · -- There is nothing to process in the last round.
    have hlast : last = false := by
      rw [← Bool.not_eq_true]
      intro hlast
      have hnil := (h.sound.ends (by rw [hpc]; exact hlast)).2.processQueues k
      rw [hk] at hnil
      cases hnil
    have hupdate := backlog_update hk
    simp only [remaining, hpc, hlast, process, Bool.false_eq_true, if_false]
    omega
  · have hzero := backlog_eq_zero.mpr hall
    cases last with
    | true => simp [remaining, hpc, h.done]
    | false =>
        simp [remaining, hpc, hzero]
        omega

/-- Each step of the consume thread is one of those that remain. -/
theorem Closing.remaining_step (h : s.Closing) (hs : s.step cfg .consume = .ok s') :
    s'.remaining + 1 = s.remaining := by
  simp only [State.step, State.consumeStep] at hs
  cases hpc : s.consume with
  | waiting | finished | failed =>
      rw [hpc] at hs
      cases hs
  | suspending => exact absurd hpc h.roused.suspending
  | acquiring | unlocking last =>
      rw [hpc] at hs
      obtain rfl := Except.ok.inj hs
      simp only [remaining, hpc]
      omega
  | locking | waking =>
      rw [hpc] at hs
      obtain ⟨-, rfl⟩ := lock_eq_ok.mp hs
      simp only [remaining, hpc]
      omega
  | testing =>
      rw [hpc] at hs
      obtain rfl := Except.ok.inj hs
      simp only [remaining, hpc, h.done, Bool.not_true, Bool.and_false]
      simp only [Bool.false_eq_true, if_false]
      omega
  | capturing =>
      rw [hpc] at hs
      obtain rfl := Except.ok.inj hs
      exact h.remaining_capture hpc
  | processing last =>
      rw [hpc] at hs
      obtain rfl := Except.ok.inj hs
      exact h.remaining_processNext hpc

theorem consumeStep_frame (hs : s.step cfg .consume = .ok s') (hfailed : s.consume ≠ .failed) :
    s'.application = s.application ∧ s'.queued = s.queued ∧ s'.consume ≠ .failed := by
  obtain ⟨-, rfl⟩ | ⟨k, e, rest, -, -, rfl⟩ | ⟨m, c, hc, rfl⟩ := consumeStep_cases hs
  · exact ⟨rfl, rfl, ConsumePc.noConfusion⟩
  · exact ⟨rfl, rfl, hfailed⟩
  · exact ⟨rfl, rfl, hc⟩

/-- A thread that is given as many steps as remain comes to its end. -/
theorem Closing.finishes (h : s.Closing) (cfg : Config) (hpc : s.application = .joining)
    (hfailed : s.consume ≠ .failed) {n : ℕ} (hn : s.remaining ≤ n) :
    (Rollback.run (step cfg) s (List.replicate n .consume)).consume = .finished ∧
      (Rollback.run (step cfg) s (List.replicate n .consume)).queued = s.queued := by
  induction n generalizing s with
  | zero =>
      refine ⟨?_, rfl⟩
      by_contra hfinished
      obtain ⟨s', hs'⟩ : ∃ s', s.step cfg .consume = .ok s' :=
        h.exists_consumeStep (h.not_waiting hpc) hfinished hfailed
      have hless := h.remaining_step hs'
      omega
  | succ n ih =>
      rw [List.replicate_succ, Rollback.run_cons]
      by_cases hfinished : s.consume = .finished
      · have hrefused : s.step cfg .consume = .error () := by
          simp [State.step, State.consumeStep, hfinished]
        rw [Rollback.push_error hrefused]
        exact ih h hpc hfailed (by simp [remaining, hfinished])
      · obtain ⟨s', hs'⟩ : ∃ s', s.step cfg .consume = .ok s' :=
          h.exists_consumeStep (h.not_waiting hpc) hfinished hfailed
        have hless := h.remaining_step hs'
        obtain ⟨happ, hqueued, hne⟩ := consumeStep_frame hs' hfailed
        rw [Rollback.push_ok hs', ← hqueued]
        exact ih (h.consumeStep hs') (happ.trans hpc) hne (by omega)

/-- Once the destructor waits for the consume thread, which is not asleep, the thread comes to
its end in the steps that remain, and everything that was queued has been processed then. -/
theorem shutdown_completes (cfg : Config) (es : List Event)
    (hpc : (reached cfg es).application = .joining) (hwaiting : (reached cfg es).consume ≠ .waiting)
    (hsuspending : (reached cfg es).consume ≠ .suspending)
    (hfailed : (reached cfg es).consume ≠ .failed) {n : ℕ} (hn : (reached cfg es).remaining ≤ n) :
    (reached cfg (es ++ List.replicate n .consume)).consume = .finished ∧
    ∀ k, ofKind k (reached cfg (es ++ List.replicate n .consume)).processedItems =
      ofKind k (reached cfg es).queued := by
  have hsound := (invariant_reached cfg es).sound
  have hclosing : (reached cfg es).Closing :=
    ⟨hsound, hsound.closed.trans (by rw [hpc]; rfl), hsuspending, fun hw => absurd hw hwaiting⟩
  obtain ⟨hfinished, hqueued⟩ := hclosing.finishes cfg hpc hfailed hn
  have hrun : Rollback.run (step cfg) (reached cfg es) (List.replicate n .consume) =
      reached cfg (es ++ List.replicate n .consume) := (Rollback.run_append ..).symm
  rw [hrun] at hfinished hqueued
  refine ⟨hfinished, fun k => ?_⟩
  have hinv := invariant_reached cfg (es ++ List.replicate n .consume)
  rw [← hqueued]
  exact hinv.ofKind_processedItems (hinv.sound.ends (by rw [hfinished]; rfl)).2 k

theorem shutdown_completes_after_oneBlock :
    (reached defaults (oneBlock ++ shutDown)).remaining = 11 ∧
    (reached defaults (oneBlock ++ shutDown ++ List.replicate 11 .consume)).consume = .finished ∧
    ∀ k, ofKind k
        (reached defaults (oneBlock ++ shutDown ++ List.replicate 11 .consume)).processedItems =
      ofKind k (reached defaults (oneBlock ++ shutDown)).queued :=
  ⟨rfl, shutdown_completes defaults _ rfl (by decide) (by decide) (by decide) (le_of_eq rfl)⟩

end State

end Xidata.Mongo
