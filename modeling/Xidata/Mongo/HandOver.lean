import Xidata.Mongo.Queues

/-!
What holds in every state that the two threads can reach, in whatever order they take their
steps: who has the mutex, when there is nothing to take over, and that the queues are handed
over in batches.
-/

namespace Xidata.Mongo

open BatchQueue (Belt Move Orderly ofKind)

/-- Inside the critical section. -/
@[simp] def ApplicationPc.holds : ApplicationPc → Bool
  | .holding _ | .pushing _ | .unlocking => true
  | _ => false

/-- Between the new entry in a queue and the call of `notify_one`. -/
@[simp] def ApplicationPc.announces : ApplicationPc → Bool
  | .unlocking | .notifying => true
  | _ => false

/-- After `done` has been set. -/
@[simp] def ApplicationPc.closed : ApplicationPc → Bool
  | .closingNotify | .joining | .joined => true
  | _ => false

@[simp] def ConsumePc.holds : ConsumePc → Bool
  | .testing | .suspending | .capturing | .unlocking _ => true
  | _ => false

/-- Between taking the queues over and the end of the loops over the process queues. -/
@[simp] def ConsumePc.works : ConsumePc → Bool
  | .unlocking _ | .processing _ => true
  | _ => false

/-- Once there was nothing to take over. -/
@[simp] def ConsumePc.ends : ConsumePc → Bool
  | .unlocking last | .processing last => last
  | .finished => true
  | _ => false

/-- The entry that the application has in hand. -/
@[simp] def ApplicationPc.carries : ApplicationPc → Option Item
  | .locking i | .holding i | .backingOff i | .sleeping i | .relocking i | .pushing i => some i
  | _ => none

/-- An accepted block that `mongodb-block-start` does not leave out. -/
def Config.fromStart (cfg : Config) : Item → Prop
  | ⟨.blockState, bs⟩ => cfg.startBlockNum ≤ BlockState.blockNum bs
  | _ => False

namespace State

/-- Nothing is left to process. -/
structure Drained (s : State) : Prop where
  queues : ∀ k, s.queues k = []
  processQueues : ∀ k, s.processQueues k = []

/-- What the steps of both threads keep. -/
structure Sound (s : State) : Prop where
  application_mtx : s.mtx = some .application ↔ s.application.holds
  consume_mtx : s.mtx = some .consume ↔ s.consume.holds
  between : s.consume.works = false → ∀ k, s.processQueues k = []
  suspending : s.consume = .suspending → ∀ k, s.queues k = []
  waiting : s.consume = .waiting → s.application.announces = false → ∀ k, s.queues k = []
  capturing : s.consume = .capturing → (∀ k, s.queues k = []) → s.done
  closed : s.done = s.application.closed
  ends : s.consume.ends → s.done ∧ s.Drained

theorem queuesEmpty_iff {s : State} : s.queuesEmpty ↔ ∀ k, s.queues k = [] := by
  simp only [queuesEmpty, List.all_eq_true, List.isEmpty_iff]
  exact ⟨fun h k => h k k.mem_all, fun h k _ => h k⟩

variable {cfg : Config} {s s' : State}

theorem sound_init (cfg : Config) : (init cfg).Sound where
  application_mtx := ⟨fun h => (by cases h), fun h => by cases h⟩
  consume_mtx := ⟨fun h => (by cases h), fun h => by cases h⟩
  between := fun _ _ => rfl
  suspending := fun h => by cases h
  waiting := fun h => by cases h
  capturing := fun h => by cases h
  closed := rfl
  ends := fun h => by cases h

/-- The mutex is free for one who is not inside. -/
theorem lock_eq_ok {t : Thread} {f : State → State} :
    s.lock t f = .ok s' ↔ s.mtx = none ∧ f { s with mtx := some t } = s' := by
  unfold lock
  split <;> simp_all

/-! ### Signals -/

/-- A signal leaves both threads as they are, but for an entry to queue; with a block from
the start block on the start block has been reached. -/
theorem onSignal_cases (cfg : Config) (s : State) (sig : Signal) :
    ∃ (reached : Bool) (pc : ApplicationPc), (s.startBlockReached → reached) ∧
      (pc = s.application ∨ ∃ i, pc = .locking i ∧ (cfg.fromStart i → reached)) ∧
      s.onSignal cfg sig = { s with startBlockReached := reached, application := pc } := by
  cases sig with
  | acceptedTransaction t =>
      simp only [onSignal, acceptedTransaction]
      split
      · exact ⟨_, _, id, .inr ⟨_, rfl, False.elim⟩, rfl⟩
      · exact ⟨_, _, id, .inl rfl, rfl⟩
  | appliedTransaction t =>
      simp only [onSignal, appliedTransaction]
      split
      · exact ⟨_, _, id, .inl rfl, rfl⟩
      · exact ⟨_, _, id, .inr ⟨_, rfl, False.elim⟩, rfl⟩
  | appliedIrreversibleBlock bs =>
      simp only [onSignal, appliedIrreversibleBlock]
      split
      · exact ⟨_, _, id, .inr ⟨_, rfl, False.elim⟩, rfl⟩
      · exact ⟨_, _, id, .inl rfl, rfl⟩
  | acceptedBlock bs =>
      have hreached : ∃ reached : Bool, (s.startBlockReached → reached) ∧
          (cfg.startBlockNum ≤ bs.blockNum → reached) ∧
          (if !s.startBlockReached && cfg.startBlockNum ≤ bs.blockNum then
            { s with startBlockReached := true } else s) = { s with startBlockReached := reached } := by
        by_cases hnum : cfg.startBlockNum ≤ bs.blockNum
        · refine ⟨true, fun _ => rfl, fun _ => rfl, ?_⟩
          cases hs : s.startBlockReached with
          | true => simp [← hs]
          | false => simp [hnum]
        · exact ⟨s.startBlockReached, id, fun h => absurd h hnum, by simp [hnum]⟩
      obtain ⟨reached, hmono, hnum, heq⟩ := hreached
      simp only [onSignal, acceptedBlock, heq]
      split
      · exact ⟨reached, _, hmono, .inr ⟨⟨.blockState, bs⟩, rfl, hnum⟩, rfl⟩
      · exact ⟨reached, _, hmono, .inl rfl, rfl⟩

theorem Sound.onSignal (h : s.Sound) (hidle : s.application = .idle) (sig : Signal) :
    (s.onSignal cfg sig).Sound := by
  obtain ⟨reached, pc, -, hpc, heq⟩ := onSignal_cases cfg s sig
  rw [heq]
  have hholds : pc.holds = s.application.holds ∧ pc.announces = s.application.announces ∧
      pc.closed = s.application.closed := by
    rw [hidle]
    obtain rfl | ⟨i, rfl, -⟩ := hpc
    · exact ⟨hidle ▸ rfl, hidle ▸ rfl, hidle ▸ rfl⟩
    · exact ⟨rfl, rfl, rfl⟩
  exact {
    application_mtx := by rw [hholds.1]; exact h.application_mtx
    consume_mtx := h.consume_mtx
    between := h.between
    suspending := h.suspending
    waiting := by
      rw [hholds.2.1]
      exact h.waiting
    capturing := h.capturing
    closed := h.closed.trans hholds.2.2.symm
    ends := fun hends => ⟨(h.ends hends).1, (h.ends hends).2.queues, (h.ends hends).2.processQueues⟩ }

/-! ### The thread of the application -/

theorem notifyOne_eq (s : State) : ∃ pc, pc ≠ .waiting ∧
    (pc = s.consume ∨ s.consume = .waiting ∧ pc = .waking) ∧ s.notifyOne = { s with consume := pc } := by
  unfold notifyOne
  split
  · next hwaiting => exact ⟨.waking, by decide, .inr ⟨hwaiting, rfl⟩, rfl⟩
  · next hne => exact ⟨s.consume, hne, .inl rfl, rfl⟩

/-- The consume thread is woken up, by `notify_one` or without a reason. -/
theorem Sound.wake (h : s.Sound) (hwaiting : s.consume = .waiting) :
    Sound { s with consume := .waking } where
  application_mtx := h.application_mtx
  consume_mtx := by
    have hmtx := h.consume_mtx
    rw [hwaiting] at hmtx
    exact hmtx
  between := fun _ => h.between (by rw [hwaiting]; rfl)
  suspending := fun hpc => by cases hpc
  waiting := fun hpc => by cases hpc
  capturing := fun hpc => by cases hpc
  closed := h.closed
  ends := fun hpc => by cases hpc

theorem Sound.notifyOne (h : s.Sound) : s.notifyOne.Sound := by
  unfold State.notifyOne
  split
  · next hwaiting => exact h.wake hwaiting
  · exact h

/-- A step of the application that leaves the queues alone. -/
theorem Sound.moveApplication (h : s.Sound) {m : Option Thread} {pc : ApplicationPc}
    (hm : m = some .application ↔ pc.holds) (hconsume : m = some .consume ↔ s.mtx = some .consume)
    (hann : s.consume = .waiting → pc.announces = false → s.application.announces = false)
    (hclosed : pc.closed = s.application.closed) (t : ℕ) :
    Sound { s with mtx := m, application := pc, queueSleepTime := t } where
  application_mtx := hm
  consume_mtx := hconsume.trans h.consume_mtx
  between := h.between
  suspending := h.suspending
  waiting := fun hw ha => h.waiting hw (hann hw ha)
  capturing := h.capturing
  closed := h.closed.trans hclosed.symm
  ends := fun he => ⟨(h.ends he).1, (h.ends he).2.queues, (h.ends he).2.processQueues⟩

/-- Who is inside keeps the other one out. -/
theorem Sound.consume_outside (h : s.Sound) (hmtx : s.mtx = some .application) :
    s.consume.holds = false := by
  rw [← Bool.not_eq_true, ← h.consume_mtx, hmtx]
  decide

theorem Sound.application_outside (h : s.Sound) (hmtx : s.mtx = some .consume) :
    s.application.holds = false := by
  rw [← Bool.not_eq_true, ← h.application_mtx, hmtx]
  decide

/-- A new entry comes only while nothing is taken over, before `done` is set. -/
theorem Sound.emplaceBack (h : s.Sound) {i : Item} (hpc : s.application = .pushing i) :
    (s.emplaceBack i).Sound := by
  have hmtx : s.mtx = some .application := h.application_mtx.mpr (by rw [hpc]; rfl)
  have hout := h.consume_outside hmtx
  have hdone : s.done = false := h.closed.trans (by rw [hpc]; rfl)
  exact {
    application_mtx := ⟨fun _ => rfl, fun _ => hmtx⟩
    consume_mtx := h.consume_mtx
    between := h.between
    suspending := fun hs => by
      change s.consume = .suspending at hs
      rw [hs] at hout
      cases hout
    waiting := fun _ ha => by cases ha
    capturing := fun hs => by
      change s.consume = .capturing at hs
      rw [hs] at hout
      cases hout
    closed := hdone
    ends := fun he => by
      have hd := (h.ends he).1
      rw [hdone] at hd
      cases hd }

theorem Sound.setDone (h : s.Sound) (hpc : s.application = .closing) :
    Sound { s with done := true, application := .closingNotify } where
  application_mtx := by
    have hmtx := h.application_mtx
    rw [hpc] at hmtx
    exact hmtx
  consume_mtx := h.consume_mtx
  between := h.between
  suspending := h.suspending
  waiting := fun hw _ => h.waiting hw (by rw [hpc]; rfl)
  capturing := fun _ _ => rfl
  closed := rfl
  ends := fun he => ⟨rfl, (h.ends he).2.queues, (h.ends he).2.processQueues⟩

theorem Sound.applicationStep (h : s.Sound) (hs : s.applicationStep cfg = .ok s') : s'.Sound := by
  have hmtx := h.application_mtx
  obtain ⟨pc, hne, -, hnotify⟩ := notifyOne_eq s
  have hnotified : s.notifyOne.Sound := h.notifyOne
  unfold State.applicationStep at hs
  rw [hnotify] at hnotified hs
  cases hpc : s.application with
  | idle | joined =>
      rw [hpc] at hs
      cases hs
  | locking i | relocking i =>
      rw [hpc] at hs
      obtain ⟨hfree, rfl⟩ := lock_eq_ok.mp hs
      exact h.moveApplication (by simp) (by simp [hfree]) (by simp [hpc]) (by simp [hpc]) _
  | holding i =>
      rw [hpc] at hs hmtx
      have hheld : s.mtx = some .application := hmtx.mpr rfl
      obtain rfl := Except.ok.inj hs
      unfold checkSize
      split
      · exact h.moveApplication (by simp) (by simp [hheld]) (by simp [hpc]) (by simp [hpc]) _
      · exact h.moveApplication (by simp [hheld]) .rfl (by simp [hpc]) (by simp [hpc]) _
  | backingOff i =>
      rw [hpc] at hs hmtx
      obtain rfl := Except.ok.inj hs
      exact hnotified.moveApplication (by simp [hmtx]) .rfl (by simp [hpc]) (by simp [hpc]) _
  | sleeping i =>
      rw [hpc] at hs hmtx
      obtain rfl := Except.ok.inj hs
      exact h.moveApplication (by simp [hmtx]) .rfl (by simp [hpc]) (by simp [hpc]) _
  | pushing i =>
      rw [hpc] at hs
      obtain rfl := Except.ok.inj hs
      exact h.emplaceBack hpc
  | unlocking =>
      rw [hpc] at hs hmtx
      have hheld : s.mtx = some .application := hmtx.mpr rfl
      obtain rfl := Except.ok.inj hs
      exact h.moveApplication (by simp) (by simp [hheld]) (by simp) (by simp [hpc]) _
  | notifying =>
      rw [hpc] at hs hmtx
      obtain rfl := Except.ok.inj hs
      exact hnotified.moveApplication (by simp [hmtx]) .rfl (fun hw => absurd hw hne)
        (by simp [hpc]) _
  | closing =>
      rw [hpc] at hs
      obtain rfl := Except.ok.inj hs
      exact h.setDone hpc
  | closingNotify =>
      rw [hpc] at hs hmtx
      obtain rfl := Except.ok.inj hs
      exact hnotified.moveApplication (by simp [hmtx]) .rfl (by simp [hpc]) (by simp [hpc]) _
  | joining =>
      rw [hpc] at hs hmtx
      obtain ⟨-, rfl⟩ := Rollback.ite_ok_eq_ok.mp hs
      exact h.moveApplication (by simp [hmtx]) .rfl (by simp [hpc]) (by simp [hpc]) _

/-! ### The consume thread -/

/-- A step of the consume thread that leaves the queues alone. -/
theorem Sound.moveConsume (h : s.Sound) {m : Option Thread} {pc : ConsumePc}
    (hm : m = some .consume ↔ pc.holds)
    (happ : m = some .application ↔ s.mtx = some .application)
    (hbetween : pc.works = false → ∀ k, s.processQueues k = [])
    (hsuspending : pc = .suspending → ∀ k, s.queues k = [])
    (hwaiting : pc = .waiting → ∀ k, s.queues k = [])
    (hcapturing : pc = .capturing → (∀ k, s.queues k = []) → s.done)
    (hends : pc.ends → s.done ∧ s.Drained) : Sound { s with mtx := m, consume := pc } where
  application_mtx := happ.trans h.application_mtx
  consume_mtx := hm
  between := hbetween
  suspending := hsuspending
  waiting := fun hw _ => hwaiting hw
  capturing := hcapturing
  closed := h.closed
  ends := fun he => ⟨(hends he).1, (hends he).2.queues, (hends he).2.processQueues⟩

theorem Sound.capture (h : s.Sound) (hpc : s.consume = .capturing) : s.capture.Sound where
  application_mtx := h.application_mtx
  consume_mtx := by
    have hmtx := h.consume_mtx
    rw [hpc] at hmtx
    exact hmtx
  between := fun hw => by cases hw
  suspending := fun hw => by cases hw
  waiting := fun hw => by cases hw
  capturing := fun hw => by cases hw
  closed := h.closed
  ends := fun he => by
    have hempty := queuesEmpty_iff.mp he
    refine ⟨h.capturing hpc hempty, fun k => rfl, fun k => ?_⟩
    change (if s.queues k = [] then s.processQueues k else s.queues k) = []
    rw [if_pos (hempty k)]
    exact h.between (by rw [hpc]; rfl) k

/-- A step of the loops takes the front off the first process queue that has one, or all
are at their end. -/
theorem processNext_cases (s : State) (last : Bool) {ks : List Stream}
    (hsorted : ks.Pairwise (· < ·)) :
    (∃ k e rest, s.processQueues k = e :: rest ∧ (∀ j ∈ ks, j < k → s.processQueues j = []) ∧
      s.processNext last ks = s.process k e rest) ∨
    (∀ k ∈ ks, s.processQueues k = []) ∧ s.processNext last ks =
      { s with consume := if last && s.done then .finished else .locking } := by
  induction ks with
  | nil => exact .inr ⟨fun _ hk => (by cases hk), rfl⟩
  | cons k ks ih =>
      obtain ⟨hk, hsorted⟩ := List.pairwise_cons.mp hsorted
      rw [processNext]
      cases hqueue : s.processQueues k with
      | cons e rest =>
          refine .inl ⟨k, e, rest, hqueue, fun j hj hlt => ?_, rfl⟩
          obtain rfl | hj := List.mem_cons.mp hj
          · exact absurd hlt (Nat.lt_irrefl _)
          · exact absurd hlt (Nat.lt_asymm (hk j hj))
      | nil =>
          obtain ⟨k', e, rest, hk', hlower, heq⟩ | ⟨hall, heq⟩ := ih hsorted
          · refine .inl ⟨k', e, rest, hk', fun j hj hlt => ?_, heq⟩
            obtain rfl | hj := List.mem_cons.mp hj
            · exact hqueue
            · exact hlower j hj hlt
          · exact .inr ⟨List.forall_mem_cons.mpr ⟨hqueue, hall⟩, heq⟩

/-- The same for the loops of `consume_blocks`. -/
theorem processAll_cases (s : State) (last : Bool) :
    (∃ k e rest, s.processQueues k = e :: rest ∧ (∀ j, j < k → s.processQueues j = []) ∧
      s.processNext last Stream.all = s.process k e rest) ∨
    (∀ k, s.processQueues k = []) ∧ s.processNext last Stream.all =
      { s with consume := if last && s.done then .finished else .locking } := by
  obtain ⟨k, e, rest, hk, hlower, heq⟩ | ⟨hall, heq⟩ := processNext_cases s last Stream.sorted_all
  · exact .inl ⟨k, e, rest, hk, fun j => hlower j j.mem_all, heq⟩
  · exact .inr ⟨fun k => hall k k.mem_all, heq⟩

theorem Sound.process (h : s.Sound) {last : Bool} (hpc : s.consume = .processing last) {k : Stream}
    {e : Entry k} {rest : List (Entry k)} (hk : s.processQueues k = e :: rest) :
    (s.process k e rest).Sound where
  application_mtx := h.application_mtx
  consume_mtx := h.consume_mtx
  between := fun hw => by
    change s.consume.works = false at hw
    rw [hpc] at hw
    cases hw
  suspending := h.suspending
  waiting := h.waiting
  capturing := h.capturing
  closed := h.closed
  ends := fun he => by
    have hempty := (h.ends he).2.processQueues k
    rw [hk] at hempty
    cases hempty

theorem Sound.consumeStep (h : s.Sound) (hs : s.consumeStep = .ok s') : s'.Sound := by
  have hmtx := h.consume_mtx
  unfold State.consumeStep at hs
  cases hpc : s.consume with
  | waiting | finished | failed =>
      rw [hpc] at hs
      cases hs
  | acquiring =>
      rw [hpc] at hs hmtx
      obtain rfl := Except.ok.inj hs
      exact h.moveConsume (by simp [hmtx]) .rfl (fun _ => h.between (by simp [hpc])) (by simp)
        (by simp) (by simp) (by simp)
  | locking | waking =>
      rw [hpc] at hs
      obtain ⟨hfree, rfl⟩ := lock_eq_ok.mp hs
      exact h.moveConsume (by simp) (by simp [hfree]) (fun _ => h.between (by simp [hpc])) (by simp)
        (by simp) (by simp) (by simp)
  | testing =>
      rw [hpc] at hs hmtx
      have hheld : s.mtx = some .consume := hmtx.mpr rfl
      obtain rfl := Except.ok.inj hs
      split
      · next hsleep =>
          rw [Bool.and_eq_true, queuesEmpty_iff] at hsleep
          exact h.moveConsume (by simp [hheld]) .rfl (fun _ => h.between (by simp [hpc]))
            (fun _ => hsleep.1) (by simp) (by simp) (by simp)
      · next hsleep =>
          refine h.moveConsume (by simp [hheld]) .rfl (fun _ => h.between (by simp [hpc])) (by simp)
            (by simp) ?_ (by simp)
          intro _ hempty
          rw [queuesEmpty_iff.mpr hempty] at hsleep
          simpa using hsleep
  | suspending =>
      rw [hpc] at hs hmtx
      have hheld : s.mtx = some .consume := hmtx.mpr rfl
      obtain rfl := Except.ok.inj hs
      exact h.moveConsume (by simp) (by simp [hheld]) (fun _ => h.between (by simp [hpc])) (by simp)
        (fun _ => h.suspending hpc) (by simp) (by simp)
  | capturing =>
      rw [hpc] at hs
      obtain rfl := Except.ok.inj hs
      exact h.capture hpc
  | unlocking last =>
      rw [hpc] at hs hmtx
      have hheld : s.mtx = some .consume := hmtx.mpr rfl
      obtain rfl := Except.ok.inj hs
      exact h.moveConsume (by simp) (by simp [hheld]) (by simp) (by simp) (by simp) (by simp)
        fun he => h.ends (hpc ▸ he)
  | processing last =>
      rw [hpc] at hs hmtx
      obtain rfl := Except.ok.inj hs
      obtain ⟨k, e, rest, hk, -, heq⟩ | ⟨hall, heq⟩ := processAll_cases s last
      · rw [heq]
        exact h.process hpc hk
      · have hends := h.ends
        rw [hpc] at hends
        rw [heq]
        split
        · next hlast =>
            rw [Bool.and_eq_true] at hlast
            exact h.moveConsume (by simp [hmtx]) .rfl (fun _ => hall) (by simp) (by simp) (by simp)
              fun _ => hends hlast.1
        · exact h.moveConsume (by simp [hmtx]) .rfl (fun _ => hall) (by simp) (by simp) (by simp)
            (by simp)

/-- What happens outside of both threads. -/
theorem signal_eq_ok {sig : Signal} :
    s.step cfg (.signal sig) = .ok s' ↔ s.application = .idle ∧ s' = s.onSignal cfg sig := by
  unfold State.step
  cases s.application <;> simp [eq_comm]

theorem shutdown_eq_ok :
    s.step cfg .shutdown = .ok s' ↔
      s.application = .idle ∧ s' = { s with application := .closing } := by
  unfold State.step
  cases s.application <;> simp [eq_comm]

/-- One step of either thread. -/
theorem Sound.step (h : s.Sound) {e : Event} (hs : s.step cfg e = .ok s') : s'.Sound := by
  cases e with
  | signal sig =>
      obtain ⟨hpc, rfl⟩ := signal_eq_ok.mp hs
      exact h.onSignal hpc sig
  | shutdown =>
      obtain ⟨hpc, rfl⟩ := shutdown_eq_ok.mp hs
      have hmtx := h.application_mtx
      rw [hpc] at hmtx
      exact h.moveApplication (by simp [hmtx]) .rfl (by simp [hpc]) (by simp [hpc]) _
  | application => exact h.applicationStep hs
  | consume => exact h.consumeStep hs
  | spurious =>
      obtain ⟨hwaiting, rfl⟩ := Rollback.ite_ok_eq_ok.mp hs
      exact h.wake hwaiting
  | acquireFails =>
      obtain ⟨hacquiring, rfl⟩ := Rollback.ite_ok_eq_ok.mp hs
      have hmtx := h.consume_mtx
      rw [hacquiring] at hmtx
      exact h.moveConsume (by simp [hmtx]) .rfl (fun _ => h.between (by simp [hacquiring]))
        (by simp) (by simp) (by simp) (by simp)

/-! ### The queues -/

/-- In `queue` and in the destructor the entry in hand comes into its queue at one place;
elsewhere only the threads move. -/
theorem applicationStep_cases (hs : s.applicationStep cfg = .ok s') :
    (∃ i, s.application = .pushing i ∧ s' = s.emplaceBack i) ∨
      ∃ m pc c t d, (∀ i, pc.carries = some i → s.application.carries = some i) ∧
        s' = { s with
          mtx := m, application := pc, consume := c, queueSleepTime := t, done := d } := by
  obtain ⟨c, -, -, hnotify⟩ := notifyOne_eq s
  unfold State.applicationStep at hs
  rw [hnotify] at hs
  cases hpc : s.application with
  | idle | joined =>
      rw [hpc] at hs
      cases hs
  | pushing i =>
      rw [hpc] at hs
      exact .inl ⟨i, rfl, (Except.ok.inj hs).symm⟩
  | locking i | relocking i =>
      rw [hpc] at hs
      obtain ⟨-, rfl⟩ := lock_eq_ok.mp hs
      refine .inr ⟨_, _, _, _, _, ?_, rfl⟩
      exact fun _ => id
  | holding i =>
      rw [hpc] at hs
      obtain rfl := Except.ok.inj hs
      unfold checkSize
      split <;> refine .inr ⟨_, _, _, _, _, ?_, rfl⟩ <;> exact fun _ => id
  | backingOff i | notifying | closingNotify | sleeping i | unlocking | closing =>
      rw [hpc] at hs
      obtain rfl := Except.ok.inj hs
      refine .inr ⟨_, _, _, _, _, ?_, rfl⟩
      exact fun _ => id
  | joining =>
      rw [hpc] at hs
      obtain ⟨-, rfl⟩ := Rollback.ite_ok_eq_ok.mp hs
      refine .inr ⟨_, _, _, _, _, ?_, rfl⟩
      exact fun _ => id

/-- The consume thread changes the queues where it takes them over, and where it is done
with an entry. -/
theorem consumeStep_cases (hs : s.consumeStep = .ok s') :
    s.consume = .capturing ∧ s' = s.capture ∨
      (∃ k e rest, s.processQueues k = e :: rest ∧ (∀ j, j < k → s.processQueues j = []) ∧
        s' = s.process k e rest) ∨
      ∃ m c, c ≠ .failed ∧ s' = { s with mtx := m, consume := c } := by
  unfold State.consumeStep at hs
  cases hpc : s.consume with
  | waiting | finished | failed =>
      rw [hpc] at hs
      cases hs
  | locking | waking =>
      rw [hpc] at hs
      obtain ⟨-, rfl⟩ := lock_eq_ok.mp hs
      exact .inr (.inr ⟨_, _, by simp, rfl⟩)
  | acquiring | testing | suspending | unlocking last =>
      rw [hpc] at hs
      obtain rfl := Except.ok.inj hs
      refine .inr (.inr ⟨_, _, ?_, rfl⟩)
      first | split <;> simp | simp
  | capturing =>
      rw [hpc] at hs
      exact .inl ⟨rfl, (Except.ok.inj hs).symm⟩
  | processing last =>
      rw [hpc] at hs
      obtain rfl := Except.ok.inj hs
      obtain ⟨k, e, rest, hk, hlower, heq⟩ | ⟨-, heq⟩ := processAll_cases s last
      · exact .inr (.inl ⟨k, e, rest, hk, hlower, heq⟩)
      · exact .inr (.inr ⟨_, _, by split <;> simp, heq⟩)

/-- What a step does to the queues is a move of the batches. -/
theorem Sound.move (h : s.Sound) {e : Event} (hs : s.step cfg e = .ok s') :
    Move s.belt s'.belt := by
  cases e with
  | signal sig =>
      obtain ⟨-, rfl⟩ := signal_eq_ok.mp hs
      obtain ⟨reached, pc, -, -, heq⟩ := onSignal_cases cfg s sig
      rw [heq]
      exact .stay
  | shutdown =>
      obtain ⟨-, rfl⟩ := shutdown_eq_ok.mp hs
      exact .stay
  | application =>
      obtain ⟨i, -, rfl⟩ | ⟨m, pc, c, t, d, -, rfl⟩ := applicationStep_cases hs
      · exact .enter i.1 i.2
      · exact .stay
  | consume =>
      obtain ⟨hpc, rfl⟩ | ⟨k, e, rest, hk, hlower, rfl⟩ | ⟨m, c, -, rfl⟩ := consumeStep_cases hs
      · have hbatch := h.between (by rw [hpc]; rfl)
        have hcapture : s.capture.belt =
            { s.belt with waiting := fun _ => [], batch := s.belt.waiting } := by
          refine congrArg (Belt.mk _ · _ _) (funext fun k => ?_)
          change (if s.queues k = [] then s.processQueues k else s.queues k) = s.queues k
          split
          · next hnil => rw [hnil, hbatch k]
          · rfl
        rw [hcapture]
        exact .take hbatch
      · have hprocess : (s.process k e rest).belt =
            { s.belt with
              batch := Function.update s.belt.batch k rest
              left := s.belt.left ++ [⟨k, e⟩] } :=
          congrArg (Belt.mk _ _ _) (List.map_append ..)
        rw [hprocess]
        exact .leave k e rest hk hlower
      · exact .stay
  | spurious =>
      obtain ⟨-, rfl⟩ := Rollback.ite_ok_eq_ok.mp hs
      exact .stay
  | acquireFails =>
      obtain ⟨-, rfl⟩ := Rollback.ite_ok_eq_ok.mp hs
      exact .stay

/-! ### Blocks from the start block on -/

/-- With an accepted block from the start block on the start block has been reached: when it
is on its way into its queue, when it is queued and when it is processed. -/
structure Caught (cfg : Config) (s : State) : Prop where
  carried : ∀ i, s.application.carries = some i → cfg.fromStart i → s.startBlockReached
  queued : ∀ i ∈ s.queued, cfg.fromStart i → s.startBlockReached
  processed : ∀ p ∈ s.processed, cfg.fromStart p.1 → p.2

theorem caught_init (cfg : Config) : (init cfg).Caught cfg :=
  ⟨fun _ h => (by cases h), fun _ h => (by cases h), fun _ h => by cases h⟩

/-- Nothing new is in hand, queued or processed. -/
theorem Caught.moveThreads (h : s.Caught cfg) {m : Option Thread} {pc : ApplicationPc} {c : ConsumePc}
    {t : ℕ} {d : Bool} (hpc : ∀ i, pc.carries = some i → s.application.carries = some i) :
    Caught cfg { s with
      mtx := m, application := pc, consume := c, queueSleepTime := t, done := d } :=
  ⟨fun i hi => h.carried i (hpc i hi), h.queued, h.processed⟩

theorem Caught.step (h : s.Caught cfg) (hsplit : BatchQueue.Split s.belt) {e : Event}
    (hs : s.step cfg e = .ok s') : s'.Caught cfg := by
  cases e with
  | signal sig =>
      obtain ⟨hidle, rfl⟩ := signal_eq_ok.mp hs
      obtain ⟨reached, pc, hmono, hpc, heq⟩ := onSignal_cases cfg s sig
      rw [heq]
      refine ⟨fun i hi hfrom => ?_, fun i hi hfrom => hmono (h.queued i hi hfrom), h.processed⟩
      obtain rfl | ⟨i', rfl, hreached⟩ := hpc
      · exact hmono (h.carried i hi hfrom)
      · cases hi
        exact hreached hfrom
  | shutdown =>
      obtain ⟨-, rfl⟩ := shutdown_eq_ok.mp hs
      exact h.moveThreads fun _ hi => by cases hi
  | application =>
      obtain ⟨i, hpc, rfl⟩ | ⟨m, pc, c, t, d, hpc, rfl⟩ := applicationStep_cases hs
      · refine ⟨fun _ hi => (by cases hi), fun i' hi' hfrom => ?_, h.processed⟩
        obtain hi' | hi' := List.mem_append.mp hi'
        · exact h.queued i' hi' hfrom
        · obtain rfl := List.mem_singleton.mp hi'
          exact h.carried i' (by rw [hpc]; rfl) hfrom
      · exact h.moveThreads hpc
  | consume =>
      obtain ⟨-, rfl⟩ | ⟨k, e, rest, hk, -, rfl⟩ | ⟨m, c, -, rfl⟩ := consumeStep_cases hs
      · exact ⟨h.carried, h.queued, h.processed⟩
      · refine ⟨h.carried, h.queued, fun p hp hfrom => ?_⟩
        obtain hp | hp := List.mem_append.mp hp
        · exact h.processed p hp hfrom
        · -- What is processed was queued.
          obtain rfl := List.mem_singleton.mp hp
          refine h.queued ⟨k, e⟩ (BatchQueue.mem_ofKind.mp ?_) hfrom
          have hfifo := hsplit.fifo k
          change ofKind k s.queued = _ ++ s.processQueues k ++ s.queues k at hfifo
          rw [hfifo, hk]
          simp
      · exact h.moveThreads fun _ => id
  | spurious =>
      obtain ⟨-, rfl⟩ := Rollback.ite_ok_eq_ok.mp hs
      exact h.moveThreads fun _ => id
  | acquireFails =>
      obtain ⟨-, rfl⟩ := Rollback.ite_ok_eq_ok.mp hs
      exact h.moveThreads fun _ => id

/-! ### All runs -/

structure Invariant (cfg : Config) (s : State) : Prop where
  sound : s.Sound
  orderly : Orderly s.belt
  caught : s.Caught cfg

/-- What the events lead to from the start of the plugin. -/
def reached (cfg : Config) (es : List Event) : State := Rollback.run (step cfg) (init cfg) es

theorem invariant_reached (cfg : Config) (es : List Event) : (reached cfg es).Invariant cfg := by
  refine Rollback.run_induction (fun s e s' h hs => ?_) es ?_
  · exact ⟨h.sound.step hs, h.orderly.move (h.sound.move hs), h.caught.step h.orderly.split hs⟩
  · exact ⟨sound_init cfg, BatchQueue.orderly_empty, caught_init cfg⟩

end State

end Xidata.Mongo
