import Xidata.Producer.Timers
import Xidata.Producer.Watermarks

/-!
One callback at a time is live.  The production loop never loses its timer, a block is produced by
the callback that was set for it, and one that finds nothing to produce has been overtaken by a
loop that left the timer alone.
-/

namespace Xidata.Producer

open Net (PublicKey)
open Intake (StartBlockResult)

/-! ### What the loop does -/

namespace Plugin

variable {s : Plugin} {e : Start}

/-- There is a block to sign, and the key for it. -/
def Ready (s : Plugin) : Prop :=
  s.pendingBlockMode = .producing ∧
    ∃ p, s.pending = some p ∧ p.blockSigningKey ∈ s.signatureProviders

theorem produceBlock_isOk_iff (s : Plugin) (after : BlockState) :
    (∃ s', s.produceBlock after = .ok s') ↔ s.Ready := by
  unfold produceBlock Ready
  by_cases hmode : s.pendingBlockMode = .producing
  · cases hp : s.pending with
    | none => simp [hmode]
    | some p =>
      by_cases hkey : p.blockSigningKey ∈ s.signatureProviders
      · simp [hmode, hkey]
      · simp [hmode, hkey]
  · simp [hmode]

theorem startMode_key {now : ℤ} {scheduled : ProducerKey}
    (h : s.startMode now scheduled = .producing) :
    scheduled.blockSigningKey ∈ s.signatureProviders := by
  by_contra hkey
  unfold startMode at h
  simp only [hkey, not_false_eq_true, if_true] at h
  split_ifs at h

/-- A block that is started to be produced can be signed. -/
theorem startBlock_ready (hwaits : ¬ s.waits e.now) {p : PendingBlock}
    (hp : (s.startBlock e.now e.key).pending = some p)
    (hmode : (s.startBlock e.now e.key).pendingBlockMode = .producing) :
    (s.startBlock e.now e.key).Ready := by
  refine ⟨hmode, p, hp, ?_⟩
  have hread : ¬ s.readOnly := fun h => hwaits (.inl h)
  unfold startBlock at hp hmode ⊢
  cases hkey : e.key with
  | none => simp [hread, hwaits, hkey] at hp
  | some key =>
    simp only [hread, hwaits, hkey, Bool.false_eq_true, if_false, Option.some.injEq] at hp hmode ⊢
    subst hp
    show key ∈ s.signatureProviders
    split at hmode
    case isTrue hsame =>
      rw [hsame]
      exact startMode_key hmode
    case isFalse => cases hmode

/-- A node that only reads blocks never produces. -/
def ReadOnlyRests (s : Plugin) : Prop := s.readOnly → s.pendingBlockMode = .speculating

theorem ReadOnlyRests.same {s' : Plugin} (h : s.ReadOnlyRests) (hread : s'.readOnly = s.readOnly)
    (hmode : s'.pendingBlockMode = s.pendingBlockMode) : s'.ReadOnlyRests := fun hr => by
  rw [hmode]
  exact h (hread ▸ hr)

theorem ReadOnlyRests.onBlock (h : s.ReadOnlyRests) (bsp : BlockState) :
    (s.onBlock bsp).ReadOnlyRests := by
  unfold Plugin.onBlock
  split
  · exact h
  · rw [confirm, confirm_fold, setWatermarks_fold]
    exact h.same rfl rfl

theorem ReadOnlyRests.maybeProduceBlock (h : s.ReadOnlyRests) (after : BlockState) :
    (s.maybeProduceBlock after).ReadOnlyRests := by
  obtain ⟨-, hs⟩ | ⟨p, -, hs⟩ := s.produce_cases after
  · rw [hs]
    exact h.same rfl rfl
  · rw [hs]
    have hsigned : (s.signed p after).ReadOnlyRests := h.same rfl rfl
    exact (hsigned.onBlock (complete p after)).same rfl rfl

theorem ReadOnlyRests.changeHead (h : s.ReadOnlyRests) (changes : List HeadChange) :
    (changes.foldl Plugin.changeHead s).ReadOnlyRests := by
  induction changes generalizing s with
  | nil => exact h
  | cons change changes ih =>
    refine ih ?_
    cases change with
    | accept bsp =>
      have hhead : ({ s with head := bsp, pending := none } : Plugin).ReadOnlyRests :=
        h.same rfl rfl
      exact hhead.onBlock bsp
    | switchHead bs => exact h.same rfl rfl

theorem ReadOnlyRests.startBlock (h : s.ReadOnlyRests) (now : ℤ) (key : Option PublicKey) :
    (s.startBlock now key).ReadOnlyRests := by
  by_cases hread : s.readOnly
  · have hsame : s.startBlock now key = s := by
      unfold Plugin.startBlock
      simp [hread]
    rwa [hsame]
  · obtain ⟨mode, pending, hs⟩ := startBlock_frame s now key
    intro hr
    rw [hs] at hr
    exact absurd hr hread

/-- A loop that waits does not produce. -/
theorem startBlock_waits (hwaits : s.waits e.now) (hread : s.ReadOnlyRests) :
    (s.startBlock e.now e.key).pendingBlockMode = .speculating := by
  unfold startBlock
  by_cases h : s.readOnly
  · simpa [h] using hread h
  · simpa [h, hwaits] using (hwaits.resolve_left h).1

end Plugin

namespace Loop

variable {b : BlockTimes} {s : Loop} {e : Start}

def waits (s : Loop) : List Wait := s.timer.toList ++ s.queued

/-- What a run of the loop leaves: the timer alone, or a callback with the next id. -/
inductive Ran (s : Loop) : Loop → Prop
  | idle {plugin : Plugin} (h : plugin.pendingBlockMode = .speculating) :
      Ran s { s with plugin := plugin, timer := none, idle := true }
  | armed {plugin : Plugin} {callback : Callback} (hread : plugin.ReadOnlyRests)
      (h : callback = .maybeProduceBlock → plugin.Ready) :
      Ran s
        { s with
          plugin := plugin
          timerCorelationId := s.timerCorelationId + 1
          timer := some ⟨callback, s.timerCorelationId + 1⟩
          idle := false }

theorem Ran.delayed {plugin : Plugin} (h : plugin.pendingBlockMode = .speculating) (time : ℤ) :
    Ran s ({ s with plugin := plugin, timer := none, idle := true }.scheduleDelayedProductionLoop b
      time) := by
  unfold scheduleDelayedProductionLoop
  split
  · exact .armed (fun _ => h) fun h => by cases h
  · exact .idle h

theorem speculating_of_not_producing {mode : PendingBlockMode} (h : ¬ mode = .producing) :
    mode = .speculating := by
  cases mode with
  | producing => exact absurd rfl h
  | speculating => rfl

theorem scheduleProductionLoop_ran (s : Loop) (e : Start)
    (hread : s.plugin.ReadOnlyRests) : Ran s (s.scheduleProductionLoop b e) := by
  have hstarted := hread.startBlock e.now e.key
  have hready : ∀ r, s.plugin.startResult e = r → r ≠ .waiting → r ≠ .failed →
      ∃ p, (s.plugin.startBlock e.now e.key).pending = some p ∧ ¬ s.plugin.waits e.now := by
    intro r hr hw hf
    unfold Plugin.startResult at hr
    split at hr
    · exact absurd hr.symm hw
    · rename_i hwaits
      split at hr
      · exact absurd hr.symm hf
      · rename_i p hp
        exact ⟨p, hp, hwaits⟩
  unfold scheduleProductionLoop
  dsimp only
  split
  case h_1 => exact .armed hstarted fun h => by cases h
  -- A loop that waits for blocks from others is not producing.
  case h_2 hr =>
    have hwaits : s.plugin.waits e.now := by
      unfold Plugin.startResult at hr
      by_contra hwaits
      rw [if_neg hwaits] at hr
      split at hr
      · cases hr
      · split_ifs at hr
    have hmode := Plugin.startBlock_waits hwaits hread
    split
    · exact .delayed hmode _
    · exact .idle hmode
  case h_3 hfailed hwaiting =>
    obtain ⟨p, hp, hwaits⟩ := hready _ rfl hwaiting hfailed
    split
    case isTrue hmode => exact .armed hstarted fun _ => Plugin.startBlock_ready hwaits hp hmode
    case isFalse hmode =>
      have hspec := speculating_of_not_producing hmode
      split
      · split
        · exact .delayed hspec _
        · exact .idle hspec
      · exact .idle hspec

/-! ### The callbacks -/

/-- The callbacks have ids of their own, up to the current one, and a loop that is not idle is
waited for by the one that has it. -/
structure Live (s : Loop) : Prop where
  read : s.plugin.ReadOnlyRests
  below : ∀ w ∈ s.waits, w.cid.toNat ≤ s.timerCorelationId.toNat
  distinct : (s.waits.map Wait.cid).Nodup
  current : s.idle = false → ∃ w ∈ s.waits, w.cid = s.timerCorelationId
  ready : s.idle = false → ∀ w ∈ s.waits, w.cid = s.timerCorelationId →
    w.callback = .maybeProduceBlock → s.plugin.Ready
  resting : s.idle = true → s.plugin.pendingBlockMode = .speculating

variable {s' : Loop}

theorem toNat_next {cid : UInt32} (h : cid.toNat + 1 < UInt32.size) :
    (cid + 1).toNat = cid.toNat + 1 := by
  rw [UInt32.toNat_add]
  exact Nat.mod_eq_of_lt h

/-- The loop is run in a state in which the ids are used up to the current one. -/
theorem Live.ran (hbelow : ∀ w ∈ s.waits, w.cid.toNat ≤ s.timerCorelationId.toNat)
    (hdistinct : (s.waits.map Wait.cid).Nodup)
    (hroom : s.timerCorelationId.toNat + 1 < UInt32.size) (hran : Ran s s') : Live s' := by
  have hqueued : ∀ w ∈ s.queued, w ∈ s.waits := fun w hw => List.mem_append_right _ hw
  have hsub : (s.queued.map Wait.cid).Sublist (s.waits.map Wait.cid) :=
    (List.sublist_append_right _ _).map _
  cases hran with
  | idle h =>
    exact ⟨fun _ => h, fun w hw => hbelow w (hqueued w hw), hdistinct.sublist hsub,
      fun hi => (by cases hi), fun hi => (by cases hi), fun _ => h⟩
  | @armed plugin callback hread h =>
    have hnext := toNat_next hroom
    -- The timer is replaced; what is in the queue has the ids before the new one.
    have hlt : ∀ w ∈ s.queued, w.cid.toNat < (s.timerCorelationId + 1).toNat := by
      intro w hw
      have hle := hbelow w (hqueued w hw)
      omega
    have hnew : ∀ w ∈ s.queued, w.cid ≠ s.timerCorelationId + 1 := by
      intro w hw he
      have hw' := hlt w hw
      rw [he] at hw'
      exact absurd hw' (Nat.lt_irrefl _)
    refine ⟨hread, ?_, ?_, ?_, ?_, fun hi => by cases hi⟩
    · intro w hw
      rcases List.mem_cons.mp hw with rfl | hw
      · exact Nat.le_refl _
      · exact Nat.le_of_lt (hlt w hw)
    · refine List.nodup_cons.mpr ⟨?_, hdistinct.sublist hsub⟩
      intro hm
      obtain ⟨w, hw, he⟩ := List.mem_map.mp hm
      exact hnew w hw he
    · exact fun _ => ⟨_, List.mem_cons_self, rfl⟩
    · intro _ w hw he hcallback
      rcases List.mem_cons.mp hw with rfl | hw
      · exact h hcallback
      · exact absurd he (hnew w hw)

/-- Nothing happens to the callbacks, nor to the block that is pending. -/
theorem Live.settings (h : Live s) {plugin : Plugin} (hread : plugin.readOnly = s.plugin.readOnly)
    (hmode : plugin.pendingBlockMode = s.plugin.pendingBlockMode)
    (hpending : plugin.pending = s.plugin.pending)
    (hproviders : plugin.signatureProviders = s.plugin.signatureProviders) :
    Live { s with plugin := plugin } where
  read := h.read.same hread hmode
  below := h.below
  distinct := h.distinct
  current := h.current
  ready hi w hw he hcallback := by
    obtain ⟨hproducing, p, hp, hkey⟩ := h.ready hi w hw he hcallback
    exact ⟨hmode.trans hproducing, p, hpending.trans hp, hproviders ▸ hkey⟩
  resting hi := hmode.trans (h.resting hi)

theorem Live.schedule (h : Live s) (hroom : s.timerCorelationId.toNat + 1 < UInt32.size)
    {plugin : Plugin} (hread : plugin.ReadOnlyRests) :
    Live (scheduleProductionLoop b { s with plugin := plugin } e) :=
  Live.ran (s := { s with plugin := plugin }) h.below h.distinct hroom
    (scheduleProductionLoop_ran _ e hread)

theorem Live.reevaluate (h : Live s) (hroom : s.timerCorelationId.toNat + 1 < UInt32.size) :
    Live (s.reevaluate b e) := by
  unfold Loop.reevaluate
  split
  · exact h.schedule hroom (h.read.same rfl rfl)
  · exact h

theorem mem_waits_erase {w w' : Wait} (hne : w' ≠ w) (h : w' ∈ s.waits) :
    w' ∈ { s with queued := s.queued.erase w }.waits := by
  rcases List.mem_append.mp h with ht | hq
  · exact List.mem_append_left _ ht
  · exact List.mem_append_right _ ((List.mem_erase_of_ne hne).mpr hq)

theorem waits_erase_sublist (s : Loop) (w : Wait) :
    { s with queued := s.queued.erase w }.waits.Sublist s.waits :=
  (List.Sublist.refl _).append List.erase_sublist

theorem Live.runCallback (h : Live s) (hroom : s.timerCorelationId.toNat + 1 < UInt32.size)
    (w : Wait) (after : BlockState) : Live (s.runCallback b w after e) := by
  have hsub := waits_erase_sublist s w
  have hbelow : ∀ w' ∈ { s with queued := s.queued.erase w }.waits,
      w'.cid.toNat ≤ s.timerCorelationId.toNat := fun w' hw' => h.below w' (hsub.subset hw')
  have hdistinct := h.distinct.sublist (hsub.map Wait.cid)
  unfold Loop.runCallback
  dsimp only
  split
  case isTrue =>
    split
    · exact Live.ran (s := { s with queued := s.queued.erase w }) hbelow hdistinct hroom
        (scheduleProductionLoop_ran _ e h.read)
    · exact Live.ran (s := { s with
          queued := s.queued.erase w
          plugin := s.plugin.maybeProduceBlock after }) hbelow hdistinct hroom
        (scheduleProductionLoop_ran _ e (h.read.maybeProduceBlock after))
  -- A callback with an old id does nothing, and is not the one that the loop waits for.
  case isFalse hstale =>
    refine ⟨h.read, hbelow, hdistinct, fun hi => ?_, fun hi w' hw' => ?_, h.resting⟩
    · obtain ⟨w', hw', he⟩ := h.current hi
      refine ⟨w', mem_waits_erase ?_ hw', he⟩
      rintro rfl
      exact hstale he
    · exact h.ready hi w' (hsub.subset hw')

theorem Live.timerExpires (h : Live s) :
    Live { s with timer := none, queued := s.queued ++ s.timer.toList } := by
  have hperm :
      { s with timer := none, queued := s.queued ++ s.timer.toList }.waits.Perm s.waits := by
    simpa [waits] using List.perm_append_comm
  refine ⟨h.read, fun w hw => h.below w (hperm.subset hw), ?_, fun hi => ?_, fun hi w hw => ?_,
    h.resting⟩
  · exact (hperm.map Wait.cid).nodup_iff.mpr h.distinct
  · obtain ⟨w, hw, he⟩ := h.current hi
    exact ⟨w, hperm.symm.subset hw, he⟩
  · exact h.ready hi w (hperm.subset hw)

theorem Live.step (h : Live s) (hroom : s.timerCorelationId.toNat + 1 < UInt32.size)
    (ev : LoopEvent) : Live (s.step b ev) := by
  cases ev with
  | onIncomingBlock changes current e =>
    refine h.schedule hroom ?_
    have haborted : s.plugin.abortBlock.ReadOnlyRests := h.read.same rfl rfl
    exact (haborted.changeHead changes).same rfl rfl
  | timerExpires => exact h.timerExpires
  | callback w after e =>
    simp only [Loop.step]
    split
    · exact h.runCallback hroom w after
    · exact h
  | pause => exact h.settings rfl rfl rfl rfl
  | resume e =>
    have hresumed : Live { s with plugin := { s.plugin with pauseProduction := false } } :=
      h.settings rfl rfl rfl rfl
    exact hresumed.reevaluate hroom
  | updateRuntimeOptions maxIrreversibleBlockAge e =>
    simp only [Loop.step]
    split
    · rename_i age
      have hset : Live { s with plugin := { s.plugin with maxIrreversibleBlockAge := age } } :=
        h.settings rfl rfl rfl rfl
      exact hset.reevaluate hroom
    · exact h
  | onIrreversibleBlock time => exact h.settings rfl rfl rfl rfl

/-! ### Runs -/

theorem toNat_next_le (cid : UInt32) : (cid + 1).toNat ≤ cid.toNat + 1 := by
  rw [UInt32.toNat_add]
  exact Nat.mod_le _ _

theorem scheduleDelayed_toNat_le (s : Loop) (time : ℤ) :
    (s.scheduleDelayedProductionLoop b time).timerCorelationId.toNat ≤
      s.timerCorelationId.toNat + 1 := by
  unfold scheduleDelayedProductionLoop
  split
  · exact toNat_next_le _
  · exact Nat.le_succ _

theorem scheduleProductionLoop_toNat_le (s : Loop) (e : Start) :
    (s.scheduleProductionLoop b e).timerCorelationId.toNat ≤ s.timerCorelationId.toNat + 1 := by
  unfold scheduleProductionLoop
  dsimp only
  split
  · exact toNat_next_le _
  · split
    · exact scheduleDelayed_toNat_le _ _
    · exact Nat.le_succ _
  · split
    · exact toNat_next_le _
    · split
      · split
        · exact scheduleDelayed_toNat_le _ _
        · exact Nat.le_succ _
      · exact Nat.le_succ _

theorem reevaluate_toNat_le (s : Loop) (e : Start) :
    (s.reevaluate b e).timerCorelationId.toNat ≤ s.timerCorelationId.toNat + 1 := by
  unfold reevaluate
  split
  · exact scheduleProductionLoop_toNat_le _ e
  · exact Nat.le_succ _

theorem step_toNat_le (s : Loop) (ev : LoopEvent) :
    (s.step b ev).timerCorelationId.toNat ≤ s.timerCorelationId.toNat + 1 := by
  cases ev with
  | onIncomingBlock changes current e => exact scheduleProductionLoop_toNat_le _ e
  | timerExpires => exact Nat.le_succ _
  | callback w after e =>
    simp only [Loop.step]
    split
    · unfold Loop.runCallback
      dsimp only
      split
      · split
        · exact scheduleProductionLoop_toNat_le _ e
        · exact scheduleProductionLoop_toNat_le _ e
      · exact Nat.le_succ _
    · exact Nat.le_succ _
  | pause => exact Nat.le_succ _
  | resume e => exact reevaluate_toNat_le _ e
  | updateRuntimeOptions maxIrreversibleBlockAge e =>
    simp only [Loop.step]
    split
    · exact reevaluate_toNat_le _ e
    · exact Nat.le_succ _
  | onIrreversibleBlock time => exact Nat.le_succ _

theorem Live.run (h : Live s) (es : List LoopEvent)
    (hroom : s.timerCorelationId.toNat + es.length < UInt32.size) : Live (s.run b es) := by
  induction es generalizing s with
  | nil => exact h
  | cons ev es ih =>
    rw [List.length_cons] at hroom
    have hle := step_toNat_le (b := b) s ev
    exact ih (h.step (by omega) ev) (by omega)

theorem live_startup {plugin : Plugin} (hmode : plugin.pendingBlockMode = .speculating) :
    Live (startup b plugin e) ∧ (startup b plugin e).timerCorelationId.toNat ≤ 1 := by
  have hran := scheduleProductionLoop_ran (b := b) { plugin } e fun _ => hmode
  have hzero : ({ plugin } : Loop).timerCorelationId.toNat = 0 := rfl
  refine ⟨Live.ran (s := { plugin }) (fun w hw => ?_) List.nodup_nil ?_ hran,
    scheduleProductionLoop_toNat_le { plugin } e⟩
  · cases hw
  · rw [hzero]
    decide

/-- In every state of a run in which the ids do not come round, at most one callback is live, and
exactly one unless the loop has left the timer alone; and the one that produces has a block to sign
exactly if the loop has not. -/
theorem one_callback_live (b : BlockTimes) {plugin : Plugin}
    (hmode : plugin.pendingBlockMode = .speculating) (e : Start) {es : List LoopEvent}
    (hlen : es.length + 1 < UInt32.size) :
    let s := (startup b plugin e).run b es
    (s.waits.map Wait.cid).count s.timerCorelationId ≤ 1 ∧
      (s.idle = false → (s.waits.map Wait.cid).count s.timerCorelationId = 1) ∧
      ∀ w ∈ s.waits, w.cid = s.timerCorelationId → w.callback = .maybeProduceBlock →
        ∀ after, (∃ s', s.plugin.produceBlock after = .ok s') ↔ s.idle = false := by
  intro s
  obtain ⟨hstart, hid⟩ := live_startup (b := b) (e := e) hmode
  have h : Live s := hstart.run es (by omega)
  have hone := List.nodup_iff_count_le_one.mp h.distinct s.timerCorelationId
  refine ⟨hone, fun hi => ?_, fun w hw he hcallback after => ?_⟩
  · obtain ⟨w, hw, he⟩ := h.current hi
    have hpos : 0 < (s.waits.map Wait.cid).count s.timerCorelationId :=
      List.count_pos_iff.mpr (List.mem_map.mpr ⟨w, hw, he⟩)
    omega
  · rw [Plugin.produceBlock_isOk_iff]
    constructor
    · intro hready
      by_contra hi
      have hrest := h.resting (by simpa using hi)
      rw [hready.1] at hrest
      cases hrest
    · exact fun hi => h.ready hi w hw he hcallback

/-- Half a second for a slot, and twelve of them for a producer. -/
def halfSeconds : BlockTimes where
  slot time := (time / blockInterval).toNat
  toTimePoint slot := slot * blockInterval
  producerRepetitions := 12

/-- The callback that produces is queued when production is paused and a block comes in; the loop
leaves the timer alone, so that the callback still has the current id. -/
theorem one_callback_live_overtaken :
    let plugin : Plugin := { Plugin.nodeOfOne with
      head := Plugin.blockBefore 11 (Plugin.blankSchedule 0 [1, 2]) none }
    let e : Start := { now := 6000000, later := 6000000, key := some {} }
    let es : List LoopEvent := [.timerExpires, .pause, .onIncomingBlock [] false e]
    let s := (startup halfSeconds plugin e).run halfSeconds es
    ((s.waits.map Wait.cid).count s.timerCorelationId ≤ 1 ∧
      (s.idle = false → (s.waits.map Wait.cid).count s.timerCorelationId = 1) ∧
      ∀ w ∈ s.waits, w.cid = s.timerCorelationId → w.callback = .maybeProduceBlock →
        ∀ after, (∃ s', s.plugin.produceBlock after = .ok s') ↔ s.idle = false) ∧
      s.waits = [⟨.maybeProduceBlock, 1⟩] ∧ s.timerCorelationId = 1 ∧ s.idle = true :=
  ⟨one_callback_live halfSeconds rfl _ (by decide), by decide +kernel, by decide +kernel,
    by decide +kernel⟩

end Loop

end Xidata.Producer
