import Mathlib.Order.Interval.Finset.Nat
import Xidata.Library.Rollback
import Xidata.Producer.Plugin

/-!
What a local producer signs twice.  The watermark of a producer is at or above the blocks
it has signed, as long as no block newly activates a producer that has signed a later one:
`on_block` sets the watermark to the number of that block, even if it is lowered thereby.
A confirmation does not set the watermark, so that only the height of the head keeps a
producer from signing a block below one that it has confirmed.
-/

namespace Xidata.Producer

open Eosiolib (AccountName)
open Net (PublicKey)

/-! ### What has been signed -/

/-- The blocks signed for a producer: their numbers, and how many blocks they confirm. -/
def blocksBy (history : List Signing) (producer : AccountName) : List (ℕ × ℕ) :=
  history.filterMap fun
    | .block p num confirmed => if p = producer then some (num, confirmed) else none
    | .confirmation _ _ => none

/-- The numbers of the blocks that have been confirmed for a producer. -/
def confirmationsBy (history : List Signing) (producer : AccountName) : List ℕ :=
  history.filterMap fun
    | .block _ _ _ => none
    | .confirmation p num => if p = producer then some num else none

@[simp] theorem blocksBy_nil (producer : AccountName) : blocksBy [] producer = [] := rfl

@[simp] theorem confirmationsBy_nil (producer : AccountName) : confirmationsBy [] producer = [] :=
  rfl

theorem blocksBy_append (history history' : List Signing) (producer : AccountName) :
    blocksBy (history ++ history') producer =
      blocksBy history producer ++ blocksBy history' producer :=
  List.filterMap_append

theorem confirmationsBy_append (history history' : List Signing) (producer : AccountName) :
    confirmationsBy (history ++ history') producer =
      confirmationsBy history producer ++ confirmationsBy history' producer :=
  List.filterMap_append

theorem blocksBy_block (p producer : AccountName) (num confirmed : ℕ) :
    blocksBy [.block p num confirmed] producer = if p = producer then [(num, confirmed)] else [] := by
  by_cases h : p = producer
  · simp [blocksBy, h]
  · simp [blocksBy, h]

theorem blocksBy_confirmations (signers : List AccountName) (num : ℕ) (producer : AccountName) :
    blocksBy (signers.map (Signing.confirmation · num)) producer = [] := by
  rw [blocksBy, List.filterMap_map]
  exact List.filterMap_eq_nil_iff.mpr fun _ _ => rfl

theorem confirmationsBy_block (p producer : AccountName) (num confirmed : ℕ) :
    confirmationsBy [.block p num confirmed] producer = [] := rfl

theorem mem_confirmationsBy {history : List Signing} {producer : AccountName} {num : ℕ} :
    num ∈ confirmationsBy history producer ↔ .confirmation producer num ∈ history := by
  rw [confirmationsBy, List.mem_filterMap]
  constructor
  · rintro ⟨signing, hmem, hsome⟩
    cases signing with
    | block p n k => cases hsome
    | confirmation p n =>
        obtain ⟨rfl, hn⟩ := Option.ite_none_right_eq_some.mp hsome
        cases hn
        exact hmem
  · intro hmem
    exact ⟨_, hmem, if_pos rfl⟩

/-- The blocks that a signed block confirms. -/
def confirmedBelow (b : ℕ × ℕ) : Finset ℕ := Finset.Ico (b.1 - b.2) b.1

/-- The numbers of the blocks signed for a producer increase, and no earlier block is
confirmed by two of them. -/
def SignsForward (history : List Signing) (producer : AccountName) : Prop :=
  (blocksBy history producer).Pairwise fun b b' =>
    b.1 < b'.1 ∧ Disjoint (confirmedBelow b) (confirmedBelow b')

/-- No block is signed for a producer at or below a block that has been confirmed for it. -/
def ConfirmationsBind (history : List Signing) : Prop :=
  history.Pairwise fun earlier later =>
    ∀ p m n k, earlier = .confirmation p m → later = .block p n k → m < n

namespace Plugin

variable {s s' : Plugin} {bsp : BlockState}

/-! ### Announced blocks -/

/-- The local producers that confirm a block. -/
def confirmers (s : Plugin) (bsp : BlockState) (producers : List AccountName) :
    List AccountName :=
  producers.filter (s.confirms bsp)

theorem confirm_fold (producers : List AccountName) (s : Plugin) :
    producers.foldl (confirmAs bsp) s =
      { s with
        lastSignedBlockTime :=
          if s.confirmers bsp producers = [] then s.lastSignedBlockTime else bsp.timestamp
        lastSignedBlockNum :=
          if s.confirmers bsp producers = [] then s.lastSignedBlockNum else bsp.blockNum
        history := s.history ++
          (s.confirmers bsp producers).map (Signing.confirmation · bsp.blockNum) } := by
  induction producers generalizing s with
  | nil => simp [confirmers]
  | cons p producers ih =>
      rw [List.foldl_cons, ih]
      by_cases hp : s.confirms bsp p
      · have hsame : (signConfirmation bsp s p).confirmers bsp producers =
            s.confirmers bsp producers := rfl
        have hcons : s.confirmers bsp (p :: producers) = p :: s.confirmers bsp producers :=
          List.filter_cons_of_pos (decide_eq_true hp)
        rw [confirmAs, if_pos hp, hsame, hcons]
        simp [signConfirmation]
      · have hcons : s.confirmers bsp (p :: producers) = s.confirmers bsp producers :=
          List.filter_cons_of_neg (by simpa using hp)
        rw [confirmAs, if_neg hp, hcons]

theorem setWatermarks_fold (num : ℕ) (producers : List AccountName) (s : Plugin) :
    producers.foldl (fun s producer => s.setWatermark producer num) s =
      { s with producerWatermarks := fun producer =>
          if producer ∈ producers then some num else s.producerWatermarks producer } := by
  induction producers generalizing s with
  | nil => simp
  | cons p producers ih =>
      rw [List.foldl_cons, ih, setWatermark]
      congr 1
      funext producer
      by_cases hmem : producer ∈ producers
      · simp [hmem]
      · by_cases hp : producer = p
        · simp [hp]
        · simp [hmem, hp]

/-- What `on_block` does: it confirms for some producers a block above all that have been
confirmed before, and it marks those that the block newly activates. -/
structure Announced (s : Plugin) (bsp : BlockState) (s' : Plugin) : Prop where
  confirmed : ∃ signers : List AccountName,
    s'.history = s.history ++ signers.map (Signing.confirmation · bsp.blockNum) ∧
      s'.lastSignedBlockNum = (if signers = [] then s.lastSignedBlockNum else bsp.blockNum) ∧
      (signers ≠ [] → s.lastSignedBlockNum < bsp.blockNum)
  watermarks : ∀ producer, s'.producerWatermarks producer =
    if ¬ s.ignores bsp ∧ producer ∈ s.newProducers bsp then some bsp.blockNum
    else s.producerWatermarks producer
  pendingBlockMode : s'.pendingBlockMode = s.pendingBlockMode
  pending : s'.pending = s.pending
  head : s'.head = s.head

theorem onBlock_announced (s : Plugin) (bsp : BlockState) : s.Announced bsp (s.onBlock bsp) := by
  unfold onBlock
  split
  · rename_i hignores
    refine ⟨⟨[], by simp⟩, fun producer => ?_, rfl, rfl, rfl⟩
    rw [if_neg fun h => h.1 hignores]
  · rename_i hignores
    have habove : s.lastSignedBlockNum < bsp.blockNum := by
      by_contra hle
      exact hignores (.inr (.inr (not_lt.mp hle)))
    rw [confirm, confirm_fold, setWatermarks_fold]
    refine ⟨⟨_, rfl, rfl, fun _ => habove⟩, fun producer => ?_, rfl, rfl, rfl⟩
    have hiff : (¬ s.ignores bsp ∧ producer ∈ s.newProducers bsp) ↔
        producer ∈ s.newProducers bsp := and_iff_right hignores
    exact if_congr hiff.symm rfl rfl

theorem Announced.blocksBy (h : s.Announced bsp s') (producer : AccountName) :
    blocksBy s'.history producer = blocksBy s.history producer := by
  obtain ⟨signers, hhistory, -, -⟩ := h.confirmed
  rw [hhistory, blocksBy_append, blocksBy_confirmations, List.append_nil]

/-! ### The pending block -/

/-- The pending block, if it can be signed. -/
def toSign (s : Plugin) : Option PendingBlock :=
  s.pending.filter fun p =>
    s.pendingBlockMode = .producing ∧ p.blockSigningKey ∈ s.signatureProviders

/-- The pending block has been signed and is the head. -/
def signed (s : Plugin) (p : PendingBlock) (after : BlockState) : Plugin :=
  { s with
    history := s.history ++ [.block p.producer p.blockNum p.confirmed]
    head := complete p after
    pending := none }

theorem produce_cases (s : Plugin) (after : BlockState) :
    s.toSign = none ∧ s.maybeProduceBlock after = { s with pending := none } ∨
      ∃ p, s.toSign = some p ∧ s.maybeProduceBlock after =
        ((s.signed p after).onBlock (complete p after)).setWatermark p.producer p.blockNum := by
  unfold maybeProduceBlock produceBlock toSign
  by_cases hmode : s.pendingBlockMode = .producing
  · cases hpending : s.pending with
    | none => exact .inl ⟨rfl, by simp [hmode]⟩
    | some p =>
        by_cases hkey : p.blockSigningKey ∈ s.signatureProviders
        · exact .inr ⟨p, by simp [hmode, hkey], by simp [hmode, hkey, signed, complete]⟩
        · exact .inl ⟨by simp [hkey], by simp [hmode, hkey]⟩
  · exact .inl ⟨by simp [hmode], by simp [hmode]⟩

theorem toSign_eq_some {p : PendingBlock} (h : s.toSign = some p) :
    s.pendingBlockMode = .producing ∧ s.pending = some p := by
  obtain ⟨hpending, hsign⟩ := Option.filter_eq_some_iff.mp h
  exact ⟨(of_decide_eq_true hsign).1, hpending⟩

/-- A pending block that is to be signed is the next one, and it is above the watermark of
its producer. -/
def Started (s : Plugin) : Prop :=
  s.pendingBlockMode = .producing → ∀ p ∈ s.pending,
    p.blockNum = s.head.blockNum + 1 ∧ p.confirmed = s.blocksToConfirm p.producer ∧
      ∀ w ∈ s.producerWatermarks p.producer, w ≤ s.head.blockNum

theorem started_of_pending (h : s.pending = none) : s.Started := fun _ p hp => by
  rw [h] at hp
  cases hp

theorem guard_producing {c : Prop} [Decidable c] {mode : PendingBlockMode} :
    (if c then .speculating else mode) = .producing ↔ ¬ c ∧ mode = .producing := by
  by_cases hc : c <;> simp [hc]

theorem startMode_producing {now : ℤ} {scheduled : ProducerKey}
    (h : s.startMode now scheduled = .producing) :
    ∀ w ∈ s.producerWatermarks scheduled.producerName, w ≤ s.head.blockNum := by
  simp only [startMode, guard_producing] at h
  obtain ⟨-, -, -, -, -, hmark, -⟩ := h
  intro w hw
  rw [Option.mem_def.mp hw, Option.any_some, decide_eq_true_eq] at hmark
  omega

/-- Nothing but the pending block and its mode is changed. -/
theorem startBlock_frame (s : Plugin) (now : ℤ) (key : Option PublicKey) :
    ∃ mode pending,
      s.startBlock now key = { s with pendingBlockMode := mode, pending := pending } := by
  unfold startBlock
  dsimp only
  split
  · exact ⟨s.pendingBlockMode, s.pending, rfl⟩
  · split
    · exact ⟨_, s.pending, rfl⟩
    · cases key with
      | none => exact ⟨_, _, rfl⟩
      | some key => exact ⟨_, _, rfl⟩

theorem Started.startBlock (h : s.Started) (now : ℤ) (key : Option PublicKey) :
    (s.startBlock now key).Started := by
  unfold Plugin.startBlock
  dsimp only
  split
  · exact h
  · rename_i hread
    split
    · rename_i hwaits
      -- The mode does not allow to sign the block that has been pending before.
      intro hmode
      rw [(hwaits.resolve_left hread).1] at hmode
      cases hmode
    · cases key with
      | none => exact started_of_pending rfl
      | some key =>
          intro hmode p hp
          cases hp
          have hproducing : s.startMode now (s.scheduledProducer now) = .producing := by
            revert hmode
            show (if _ then _ else _) = _ → _
            split
            · exact id
            · exact fun hmode => by cases hmode
          exact ⟨rfl, if_pos hproducing, startMode_producing hproducing⟩

/-- Between two productions no more is confirmed than lies above the watermark. -/
theorem blocksToConfirm_le {producer : AccountName} {w : ℕ}
    (h : s.producerWatermarks producer = some w) :
    s.blocksToConfirm producer ≤ s.head.blockNum - w := by
  rw [blocksToConfirm, h]
  dsimp only
  split
  · exact Nat.mod_le _ _
  · exact Nat.zero_le _

/-- The block that becomes the head with an event and is announced. -/
def announced (s : Plugin) : Event → Option BlockState
  | .accept bsp => some bsp
  | .produce after => s.toSign.map (complete · after)
  | _ => none

/-- What an event does: a block is accepted, the pending block is signed, or nothing is
announced and nothing changes that the signatures depend on. -/
inductive Moves (s : Plugin) : Event → Plugin → Prop
  | accept (bsp : BlockState) :
      Moves s (.accept bsp) ({ s with head := bsp, pending := none }.onBlock bsp)
  | produce {p : PendingBlock} (after : BlockState) (hsign : s.toSign = some p) :
      Moves s (.produce after)
        (((s.signed p after).onBlock (complete p after)).setWatermark p.producer p.blockNum)
  | quiet {e : Event} {s' : Plugin} (hannounced : s.announced e = none)
      (history : s'.history = s.history)
      (watermarks : s'.producerWatermarks = s.producerWatermarks)
      (lastSigned : s'.lastSignedBlockNum = s.lastSignedBlockNum)
      (started : s.Started → s'.Started) : Moves s e s'

theorem step_moves {e : Event} (hstep : s.step e = .ok s') : s.Moves e s' := by
  cases e with
  | accept bsp =>
      cases hstep
      exact .accept bsp
  | switchHead bs =>
      cases hstep
      exact .quiet rfl rfl rfl rfl fun _ => started_of_pending rfl
  | startBlock now key =>
      cases hstep
      obtain ⟨mode, pending, heq⟩ := s.startBlock_frame now key
      refine .quiet rfl ?_ ?_ ?_ fun h => h.startBlock now key
      all_goals rw [heq]
  | produce after =>
      cases hstep
      obtain ⟨hsign, heq⟩ | ⟨p, hsign, heq⟩ := s.produce_cases after <;> rw [heq]
      · refine .quiet ?_ rfl rfl rfl fun _ => started_of_pending rfl
        rw [announced, hsign]
        rfl
      · exact .produce after hsign
  | settings enabled paused maxAge irreversibleTime =>
      cases hstep
      exact .quiet rfl rfl rfl rfl id

theorem Started.step {e : Event} (h : s.Started) (hstep : s.step e = .ok s') : s'.Started := by
  cases step_moves hstep with
  | accept bsp => exact started_of_pending (onBlock_announced _ bsp).pending
  | @produce p after _ => exact started_of_pending (onBlock_announced (s.signed p after) _).pending
  | quiet _ _ _ _ started => exact started h

/-! ### Watermarks -/

/-- The watermark of a producer is at or above the blocks `bs`. -/
def Covers (s : Plugin) (producer : AccountName) (bs : List (ℕ × ℕ)) : Prop :=
  ∀ b ∈ bs, ∃ w ∈ s.producerWatermarks producer, b.1 ≤ w

structure Marked (s : Plugin) : Prop where
  forward : ∀ producer, SignsForward s.history producer
  covers : ∀ producer, s.Covers producer (blocksBy s.history producer)
  started : s.Started

/-- Every local producer that a block newly activates has signed no later block, or the block
is ignored. -/
def ActivatesFresh (s : Plugin) (bsp : BlockState) : Prop :=
  ¬ s.ignores bsp → ∀ producer ∈ s.newProducers bsp, ∀ b ∈ blocksBy s.history producer,
    b.1 ≤ bsp.blockNum

-- By the list of the new producers, not by all account names.
instance (s : Plugin) (bsp : BlockState) : Decidable (s.ActivatesFresh bsp) :=
  @instDecidableForall _ _ _ (List.decidableBAll _ _)

theorem Announced.covers (h : s.Announced bsp s') {producer : AccountName} {bs : List (ℕ × ℕ)}
    (hcovers : s.Covers producer bs)
    (hfresh : ¬ s.ignores bsp → producer ∈ s.newProducers bsp → ∀ b ∈ bs, b.1 ≤ bsp.blockNum) :
    s'.Covers producer bs := by
  intro b hb
  rw [h.watermarks]
  split
  · rename_i hnew
    exact ⟨bsp.blockNum, rfl, hfresh hnew.1 hnew.2 b hb⟩
  · exact hcovers b hb

@[simp] theorem setWatermark_history (s : Plugin) (producer : AccountName) (num : ℕ) :
    (s.setWatermark producer num).history = s.history := rfl

theorem covers_setWatermark {producer : AccountName} {num : ℕ} {bs : List (ℕ × ℕ)}
    (h : ∀ b ∈ bs, b.1 ≤ num) : (s.setWatermark producer num).Covers producer bs :=
  fun b hb => ⟨num, Function.update_self _ _ _, h b hb⟩

theorem Covers.setWatermark {producer other : AccountName} {bs : List (ℕ × ℕ)}
    (h : s.Covers producer bs) (hne : other ≠ producer) (num : ℕ) :
    (s.setWatermark other num).Covers producer bs := by
  intro b hb
  obtain ⟨w, hw, hle⟩ := h b hb
  exact ⟨w, (Function.update_of_ne hne.symm _ _).trans hw, hle⟩

theorem Marked.accept (h : s.Marked) (hfresh : s.ActivatesFresh bsp) :
    ({ s with head := bsp, pending := none }.onBlock bsp).Marked := by
  have hannounced := onBlock_announced { s with head := bsp, pending := none } bsp
  refine ⟨fun producer => ?_, fun producer => ?_, started_of_pending hannounced.pending⟩
  · rw [SignsForward, hannounced.blocksBy]
    exact h.forward producer
  · rw [hannounced.blocksBy]
    exact hannounced.covers (h.covers producer) fun hacts hnew => hfresh hacts producer hnew

/-- The next block lies above the blocks signed before it, and so does what it confirms. -/
theorem Marked.above (h : s.Marked) {p : PendingBlock} (hsign : s.toSign = some p) :
    ∀ b ∈ blocksBy s.history p.producer, b.1 < p.blockNum ∧
      Disjoint (confirmedBelow b) (confirmedBelow (p.blockNum, p.confirmed)) := by
  intro b hb
  obtain ⟨hmode, hpending⟩ := toSign_eq_some hsign
  obtain ⟨hnum, hconfirmed, hmark⟩ := h.started hmode p hpending
  obtain ⟨w, hw, hle⟩ := h.covers p.producer b hb
  -- Everything that was signed before lies up to the watermark, the new block above it.
  have hhead : w ≤ s.head.blockNum := hmark w hw
  have hrange : p.confirmed ≤ s.head.blockNum - w := by
    rw [hconfirmed]
    exact blocksToConfirm_le hw
  refine ⟨by omega, Finset.disjoint_left.mpr fun n hn hn' => ?_⟩
  rw [confirmedBelow, Finset.mem_Ico] at hn hn'
  dsimp only at hn'
  omega

theorem Marked.produce (h : s.Marked) {p : PendingBlock} (hsign : s.toSign = some p)
    {after : BlockState} (hfresh : s.ActivatesFresh (complete p after)) :
    (((s.signed p after).onBlock (complete p after)).setWatermark p.producer p.blockNum).Marked := by
  -- The block is announced when it has been signed, and only then its watermark is set.
  have hannounced := onBlock_announced (s.signed p after) (complete p after)
  have hblocks : ∀ producer,
      blocksBy ((s.signed p after).onBlock (complete p after)).history producer =
        blocksBy s.history producer ++
          if p.producer = producer then [(p.blockNum, p.confirmed)] else [] := by
    intro producer
    rw [hannounced.blocksBy, signed, blocksBy_append, blocksBy_block]
  refine ⟨fun producer => ?_, fun producer => ?_, started_of_pending hannounced.pending⟩
  · rw [SignsForward, setWatermark_history, hblocks]
    split
    · rename_i hp
      subst hp
      refine List.pairwise_append.mpr ⟨h.forward _, List.pairwise_singleton _ _, ?_⟩
      intro b hb b' hb'
      rw [List.mem_singleton.mp hb']
      exact h.above hsign b hb
    · rw [List.append_nil]
      exact h.forward producer
  · rw [setWatermark_history, hblocks]
    split
    · rename_i hp
      subst hp
      refine covers_setWatermark fun b hb => ?_
      obtain hb | hb := List.mem_append.mp hb
      · exact (h.above hsign b hb).1.le
      · rw [List.mem_singleton.mp hb]
    · rename_i hp
      rw [List.append_nil]
      have hother : (s.signed p after).Covers producer (blocksBy s.history producer) :=
        h.covers producer
      have hcovers := hannounced.covers hother fun hacts hnew => hfresh hacts producer hnew
      exact hcovers.setWatermark hp _

theorem Marked.step {e : Event} (h : s.Marked) (hstep : s.step e = .ok s')
    (hfresh : ∀ bsp ∈ s.announced e, s.ActivatesFresh bsp) : s'.Marked := by
  have hstarted : s'.Started := h.started.step hstep
  cases step_moves hstep with
  | accept bsp => exact h.accept (hfresh bsp rfl)
  | produce after hsign =>
      refine h.produce hsign (hfresh _ ?_)
      rw [announced, hsign]
      rfl
  | quiet _ history watermarks _ _ =>
      refine ⟨fun producer => ?_, fun producer => ?_, hstarted⟩
      · rw [history]
        exact h.forward producer
      · rw [history, Covers, watermarks]
        exact h.covers producer

theorem marked_start (hhistory : s.history = []) (hpending : s.pending = none) : s.Marked where
  forward producer := by
    rw [SignsForward, hhistory]
    exact List.Pairwise.nil
  covers producer b hb := by
    rw [hhistory] at hb
    cases hb
  started := started_of_pending hpending

/-- As long as no block newly activates a local producer that has signed a later block, the
numbers of the blocks that are signed for a producer increase and what they confirm does
not overlap. -/
theorem signs_forward {es : List Event} (hhistory : s.history = []) (hpending : s.pending = none)
    (hfresh : Rollback.Along step (fun t e _ => ∀ bsp ∈ t.announced e, t.ActivatesFresh bsp) s es) :
    ∀ t ∈ Rollback.trace step s es, ∀ producer, SignsForward t.history producer := by
  have hmarked := Rollback.trace_induction_along (I := Marked)
    (fun _ _ _ h hstep hfresh => h.step hstep hfresh) hfresh (marked_start hhistory hpending)
  exact fun t ht => (hmarked t ht).forward

/-- A schedule of producers that all sign with the empty key. -/
def blankSchedule (version : UInt32) (producers : List AccountName) : ProducerSchedule :=
  ⟨version, producers.map fun producer => ⟨producer, {}⟩⟩

/-- A block of producer `2`, after which it is the turn of producer `1`. -/
def blockBefore (num : ℕ) (active : ProducerSchedule) (promoted : Option ProducerSchedule) :
    BlockState where
  blockNum := num
  timestamp := blockInterval * num
  producer := 2
  activeSchedule := active
  promoted := promoted
  getScheduledProducer := fun _ => ⟨1, {}⟩

/-- The node of producer `1`. -/
def nodeOfOne : Plugin where
  producers := [1]
  signatureProviders := [{}]
  productionEnabled := true

/-- The pending block is started and signed. -/
def ownBlock (after : BlockState) : List Event :=
  [.startBlock 6000000 (some {}), .produce after]

/-- Producer `1` becomes active after block 11, and signs blocks 12 and 14. -/
theorem signs_forward_two :
    let before := blankSchedule 0 [2]
    let both := blankSchedule 1 [1, 2]
    let es : List Event := [.accept (blockBefore 11 before (some both))] ++
      ownBlock (blockBefore 12 both none) ++ [.accept (blockBefore 13 both none)] ++
      ownBlock (blockBefore 14 both none)
    (∀ t ∈ Rollback.trace step nodeOfOne es, ∀ producer, SignsForward t.history producer) ∧
      (Rollback.run step nodeOfOne es).history =
        [.block 1 12 0, .confirmation 1 13, .block 1 14 1] :=
  ⟨signs_forward rfl rfl (by decide +kernel), by decide +kernel⟩

/-- On another fork producer `1` becomes active after block 12 only, so that it signs a
second block 13. -/
theorem activated_again_signs_twice :
    let before := blankSchedule 0 [2]
    let both := blankSchedule 1 [1, 2]
    let es : List Event := [.accept (blockBefore 11 before (some both))] ++
      ownBlock (blockBefore 12 both none) ++ ownBlock (blockBefore 13 both none) ++
      [.accept (blockBefore 12 before (some both))] ++ ownBlock (blockBefore 13 both none)
    (Rollback.run step nodeOfOne es).history =
        [.block 1 12 0, .block 1 13 0, .block 1 13 0] ∧
      ¬ SignsForward (Rollback.run step nodeOfOne es).history 1 := by
  intro before both es
  have hhistory : (Rollback.run step nodeOfOne es).history =
      [.block 1 12 0, .block 1 13 0, .block 1 13 0] := by decide +kernel
  refine ⟨hhistory, fun hforward => ?_⟩
  rw [hhistory] at hforward
  have hlt := (List.pairwise_cons.mp (List.pairwise_cons.mp hforward).2).1 (13, 0) List.mem_cons_self
  exact absurd hlt.1 (lt_irrefl 13)

/-! ### Confirmations -/

/-- What has been confirmed for each producer increases, up to `num`. -/
structure ConfirmedUpTo (history : List Signing) (num : ℕ) : Prop where
  bounded : ∀ producer, ∀ m ∈ confirmationsBy history producer, m ≤ num
  sorted : ∀ producer, (confirmationsBy history producer).Pairwise (· ≤ ·)

theorem ConfirmedUpTo.block {history : List Signing} {num : ℕ} (h : ConfirmedUpTo history num)
    (p : AccountName) (n k : ℕ) : ConfirmedUpTo (history ++ [.block p n k]) num := by
  have hsame : ∀ producer, confirmationsBy (history ++ [.block p n k]) producer =
      confirmationsBy history producer := fun producer => by
    rw [confirmationsBy_append, confirmationsBy_block, List.append_nil]
  exact ⟨fun producer => by rw [hsame]; exact h.bounded producer,
    fun producer => by rw [hsame]; exact h.sorted producer⟩

theorem confirmationsBy_confirmations {signers : List AccountName} {num m : ℕ}
    {producer : AccountName}
    (h : m ∈ confirmationsBy (signers.map (Signing.confirmation · num)) producer) :
    signers ≠ [] ∧ m = num := by
  obtain ⟨p, hp, heq⟩ := List.mem_map.mp (mem_confirmationsBy.mp h)
  cases heq
  exact ⟨List.ne_nil_of_mem hp, rfl⟩

/-- A block that is confirmed is above all that have been confirmed. -/
theorem Announced.confirmedUpTo (h : s.Announced bsp s')
    (hs : ConfirmedUpTo s.history s.lastSignedBlockNum) :
    ConfirmedUpTo s'.history s'.lastSignedBlockNum := by
  obtain ⟨signers, hhistory, hlast, habove⟩ := h.confirmed
  have hle : s.lastSignedBlockNum ≤ s'.lastSignedBlockNum := by
    rw [hlast]
    split
    · exact le_rfl
    · rename_i hsigners
      exact (habove hsigners).le
  -- All new confirmations are of this block, which lies above those signed before.
  have hnew : ∀ producer,
      ∀ m ∈ confirmationsBy (signers.map (Signing.confirmation · bsp.blockNum)) producer,
        s.lastSignedBlockNum < m ∧ m = s'.lastSignedBlockNum := by
    intro producer m hm
    obtain ⟨hsigners, rfl⟩ := confirmationsBy_confirmations hm
    rw [hlast, if_neg hsigners]
    exact ⟨habove hsigners, rfl⟩
  refine ⟨fun producer m hm => ?_, fun producer => ?_⟩
  · rw [hhistory, confirmationsBy_append] at hm
    obtain hm | hm := List.mem_append.mp hm
    · exact (hs.bounded producer m hm).trans hle
    · exact (hnew producer m hm).2.le
  · rw [hhistory, confirmationsBy_append]
    refine List.pairwise_append.mpr ⟨hs.sorted producer, ?_, fun m hm m' hm' => ?_⟩
    · refine List.Pairwise.imp_of_mem (R := fun _ _ => True) (fun hm hm' _ => ?_) ?_
      · exact ((hnew producer _ hm).2.trans (hnew producer _ hm').2.symm).le
      · exact List.pairwise_of_forall fun _ _ => trivial
    · exact (hs.bounded producer m hm).trans (hnew producer m' hm').1.le

theorem confirmedUpTo_step {e : Event} (h : ConfirmedUpTo s.history s.lastSignedBlockNum)
    (hstep : s.step e = .ok s') : ConfirmedUpTo s'.history s'.lastSignedBlockNum := by
  cases step_moves hstep with
  | accept bsp => exact (onBlock_announced _ bsp).confirmedUpTo h
  | @produce p after _ =>
      exact (onBlock_announced (s.signed p after) _).confirmedUpTo (h.block _ _ _)
  | quiet _ history _ lastSigned _ =>
      rw [history, lastSigned]
      exact h

theorem confirmationsBind_block {history : List Signing} {p : AccountName} {n k : ℕ} :
    ConfirmationsBind (history ++ [.block p n k]) ↔
      ConfirmationsBind history ∧ ∀ m ∈ confirmationsBy history p, m < n := by
  rw [ConfirmationsBind, List.pairwise_append]
  constructor
  · rintro ⟨hbind, -, hnew⟩
    refine ⟨hbind, fun m hm => ?_⟩
    exact hnew _ (mem_confirmationsBy.mp hm) _ List.mem_cons_self p m n k rfl rfl
  · rintro ⟨hbind, hnew⟩
    refine ⟨hbind, List.pairwise_singleton _ _, ?_⟩
    intro earlier hmem later hlater p' m n' k' hearlier hblock
    rw [List.mem_singleton.mp hlater] at hblock
    cases hblock
    exact hnew m (mem_confirmationsBy.mpr (hearlier ▸ hmem))

theorem confirmationsBind_confirmations {history : List Signing} {signers : List AccountName}
    {num : ℕ} :
    ConfirmationsBind (history ++ signers.map (Signing.confirmation · num)) ↔
      ConfirmationsBind history := by
  have hnot : ∀ later ∈ signers.map (Signing.confirmation · num), ∀ p n k,
      later ≠ .block p n k := by
    intro later hlater p n k heq
    obtain ⟨q, -, rfl⟩ := List.mem_map.mp hlater
    cases heq
  rw [ConfirmationsBind, List.pairwise_append]
  refine ⟨fun h => h.1, fun h => ⟨h, ?_, ?_⟩⟩
  · refine List.Pairwise.imp_of_mem (R := fun _ _ => True) ?_ (List.pairwise_of_forall fun _ _ => trivial)
    exact fun _ hlater _ p _ n k _ hblock => absurd hblock (hnot _ hlater p n k)
  · exact fun _ _ later hlater p _ n k _ hblock => absurd hblock (hnot later hlater p n k)

theorem Announced.confirmationsBind (h : s.Announced bsp s') :
    ConfirmationsBind s'.history ↔ ConfirmationsBind s.history := by
  obtain ⟨signers, hhistory, -, -⟩ := h.confirmed
  rw [hhistory, confirmationsBind_confirmations]

/-- The last block that has been confirmed for a producer. -/
def lastConfirmed (s : Plugin) (producer : AccountName) : Option ℕ :=
  (confirmationsBy s.history producer).getLast?

theorem le_lastConfirmed {num : ℕ} (h : ConfirmedUpTo s.history num) {producer : AccountName}
    {m : ℕ} (hm : m ∈ confirmationsBy s.history producer) :
    ∃ last ∈ s.lastConfirmed producer, m ≤ last := by
  have hne : confirmationsBy s.history producer ≠ [] := List.ne_nil_of_mem hm
  exact ⟨_, List.getLast?_eq_some_getLast hne, (h.sorted producer).rel_getLast hm⟩

/-- If the event signs the pending block, then the head is not below the last block that has
been confirmed for its producer. -/
def HeadAboveConfirmed (s : Plugin) (e : Event) : Prop :=
  ∀ after, e = .produce after → ∀ p ∈ s.toSign, ∀ m ∈ s.lastConfirmed p.producer,
    m ≤ s.head.blockNum

theorem confirmationsBind_step {e : Event} (hstarted : s.Started)
    (hconfirmed : ConfirmedUpTo s.history s.lastSignedBlockNum)
    (hbind : ConfirmationsBind s.history) (hstep : s.step e = .ok s') :
    ConfirmationsBind s'.history ↔ s.HeadAboveConfirmed e := by
  cases step_moves hstep with
  | accept bsp =>
      refine iff_of_true ((onBlock_announced _ bsp).confirmationsBind.mpr hbind) ?_
      intro after heq
      cases heq
  | @produce p after hsign =>
      obtain ⟨hmode, hpending⟩ := toSign_eq_some hsign
      obtain ⟨hnum, -, -⟩ := hstarted hmode p hpending
      rw [setWatermark_history, (onBlock_announced _ _).confirmationsBind, signed,
        confirmationsBind_block, and_iff_right hbind, hnum]
      constructor
      · intro h _ _ q hq m hm
        cases hsign.symm.trans hq
        exact Nat.lt_succ_iff.mp (h m (List.mem_of_getLast? hm))
      · intro h m hm
        -- It is enough to look at the last confirmation, as it is the highest one.
        obtain ⟨last, hlast, hle⟩ := le_lastConfirmed hconfirmed hm
        exact Nat.lt_succ_iff.mpr (hle.trans (h after rfl p hsign last hlast))
  | quiet hannounced history _ _ _ =>
      rw [history]
      refine iff_of_true hbind ?_
      rintro after rfl p hp
      rw [announced, Option.mem_def.mp hp] at hannounced
      cases hannounced

/-- No block is ever signed at or below one that has been confirmed for its producer if and
only if none is signed while the head is below that one. -/
theorem confirmations_bind_iff {es : List Event} (hhistory : s.history = [])
    (hpending : s.pending = none) :
    (∀ t ∈ Rollback.trace step s es, ConfirmationsBind t.history) ↔
      Rollback.Along step (fun t e _ => t.HeadAboveConfirmed e) s es := by
  have hconfirmed : ConfirmedUpTo s.history s.lastSignedBlockNum := by
    rw [hhistory]
    exact ⟨fun _ m hm => absurd hm List.not_mem_nil, fun _ => List.Pairwise.nil⟩
  have hbind : ConfirmationsBind s.history := by
    rw [hhistory]
    exact List.Pairwise.nil
  exact Rollback.trace_iff_along
    (J := fun t => t.Started ∧ ConfirmedUpTo t.history t.lastSignedBlockNum ∧
      ConfirmationsBind t.history)
    (Q := fun t => ConfirmationsBind t.history) (fun _ h => h.2.2)
    (fun _ _ _ ⟨hstarted, hconfirmed, hbind⟩ hstep he => ⟨hstarted.step hstep,
      confirmedUpTo_step hconfirmed hstep,
      (confirmationsBind_step hstarted hconfirmed hbind hstep).mpr he⟩)
    (fun _ _ _ ⟨hstarted, hconfirmed, hbind⟩ hstep hbind' =>
      (confirmationsBind_step hstarted hconfirmed hbind hstep).mp hbind')
    ⟨started_of_pending hpending, hconfirmed, hbind⟩

/-- A confirmed block is extended. -/
theorem confirmations_bind_extended :
    let both := blankSchedule 1 [1, 2]
    let es : List Event := [.accept (blockBefore 10 both none)] ++ ownBlock (blockBefore 11 both none)
    (∀ t ∈ Rollback.trace step nodeOfOne es, ConfirmationsBind t.history) ∧
      (Rollback.run step nodeOfOne es).history = [.confirmation 1 10, .block 1 11 0] := by
  refine ⟨(confirmations_bind_iff rfl rfl).mpr ⟨?_, ?_, ?_, trivial⟩, by decide +kernel⟩
  · intro _ _ after h
    cases h
  · intro _ _ after h
    cases h
  · intro _ _ _ _
    decide +kernel

/-- The head moves from the confirmed block 10 to block 8 of another fork, where producer `1`
signs block 9. -/
theorem confirmed_block_abandoned :
    let both := blankSchedule 1 [1, 2]
    let es : List Event := [.accept (blockBefore 10 both none), .switchHead (blockBefore 7 both none),
      .accept (blockBefore 8 both none)] ++ ownBlock (blockBefore 9 both none)
    (Rollback.run step nodeOfOne es).history = [.confirmation 1 10, .block 1 9 0] ∧
      ¬ ConfirmationsBind (Rollback.run step nodeOfOne es).history := by
  intro both es
  have hhistory : (Rollback.run step nodeOfOne es).history =
      [.confirmation 1 10, .block 1 9 0] := by decide +kernel
  refine ⟨hhistory, fun hbind => ?_⟩
  rw [hhistory] at hbind
  have hlt := (List.pairwise_cons.mp hbind).1 _ List.mem_cons_self 1 10 9 0 rfl rfl
  exact absurd hlt (by decide)

/-! ### The number of blocks confirmed -/

/-- The checks of `start_block` that come before the watermark. -/
def MayProduce (s : Plugin) (now : ℤ) (scheduled : ProducerKey) : Prop :=
  s.productionEnabled ∧ scheduled.producerName ∈ s.producers ∧
    scheduled.blockSigningKey ∈ s.signatureProviders ∧ ¬ s.pauseProduction ∧
      ¬ (0 ≤ s.maxIrreversibleBlockAge ∧
        s.maxIrreversibleBlockAge ≤ s.irreversibleBlockAge now)

instance (s : Plugin) (now : ℤ) (scheduled : ProducerKey) :
    Decidable (s.MayProduce now scheduled) :=
  inferInstanceAs (Decidable (_ ∧ _))

theorem startMode_eq_producing_iff {now : ℤ} {scheduled : ProducerKey}
    (h : s.MayProduce now scheduled) :
    s.startMode now scheduled = .producing ↔
      ∀ w ∈ s.producerWatermarks scheduled.producerName, w < (s.head.blockNum + 1) % 2 ^ 32 := by
  obtain ⟨henabled, hproducer, hkey, hpause, hage⟩ := h
  simp only [startMode, guard_producing, henabled, hproducer, hkey, hpause, hage, not_true,
    not_false_iff, true_and, and_true]
  cases s.producerWatermarks scheduled.producerName <;> simp

/-- The number of blocks that `start_block` asks the chain to confirm, if it starts one. -/
def asksToConfirm (s : Plugin) (now : ℤ) : Option ℕ :=
  if s.waits now then none
  else if s.startMode now (s.scheduledProducer now) = .producing then
    some (s.blocksToConfirm (s.scheduledProducer now).producerName)
  else some 0

theorem startBlock_pending {now : ℤ} {n : ℕ} (hread : s.readOnly = false)
    (h : s.asksToConfirm now = some n) (key : PublicKey) :
    (s.startBlock now (some key)).pending = some (s.chainStartBlock now key n) := by
  rw [asksToConfirm] at h
  split at h
  · cases h
  · rename_i hwaits
    rw [startBlock, if_neg (by simp [hread]), if_neg hwaits]
    split at h
    · rename_i hmode
      cases h
      dsimp only
      rw [if_pos hmode]
    · rename_i hmode
      cases h
      dsimp only
      rw [if_neg hmode]

/-- For a local producer with a watermark below the head, the number of blocks to confirm is
their difference, or the highest that the format has, if and only if the cast to 16 bits
comes to the same and the next block has a number. -/
theorem asksToConfirm_saturates_iff {now : ℤ} {w : ℕ} (hread : s.readOnly = false)
    (hmay : s.MayProduce now (s.scheduledProducer now))
    (hw : s.producerWatermarks (s.scheduledProducer now).producerName = some w)
    (hlt : w < s.head.blockNum) (hhead : s.head.blockNum < 2 ^ 32) :
    s.asksToConfirm now = some (min 65535 (s.head.blockNum - w)) ↔
      s.head.blockNum + 1 < 2 ^ 32 ∧
        (s.head.blockNum - w < 2 ^ 16 ∨ (s.head.blockNum - w) % 2 ^ 16 = 65535) := by
  have hmode : s.startMode now (s.scheduledProducer now) = .producing ↔
      s.head.blockNum + 1 < 2 ^ 32 := by
    rw [startMode_eq_producing_iff hmay, hw]
    simp only [Option.mem_some_iff, forall_eq']
    omega
  by_cases hnext : s.head.blockNum + 1 < 2 ^ 32
  · have hstarts : ¬ s.waits now := by
      rintro (hreads | ⟨hspeculating, -⟩)
      · rw [hread] at hreads
        cases hreads
      · rw [hmode.mpr hnext] at hspeculating
        cases hspeculating
    have hcast : s.asksToConfirm now = some ((s.head.blockNum - w) % 2 ^ 16) := by
      rw [asksToConfirm, if_neg hstarts, if_pos (hmode.mpr hnext), blocksToConfirm, hw]
      exact congrArg some (if_pos hlt)
    rw [hcast, Option.some_inj]
    omega
  · -- After the last block number the watermark counts as too high.
    have hzero : s.asksToConfirm now = none ∨ s.asksToConfirm now = some 0 := by
      rw [asksToConfirm, if_neg (mt hmode.mp hnext)]
      split
      · exact .inl rfl
      · exact .inr rfl
    constructor
    · intro hasks
      rcases hzero with hzero | hzero
      · rw [hzero] at hasks
        cases hasks
      · have hmin := Option.some_inj.mp (hzero.symm.trans hasks)
        omega
    · exact fun h => absurd h.1 hnext

/-- The node of producer `1` with its watermark, on a head with the number `num`. -/
def idleNode (watermark num : ℕ) : Plugin :=
  { nodeOfOne with
    producerWatermarks := fun _ => some watermark
    head := blockBefore num (blankSchedule 1 [1, 2]) none }

theorem asksToConfirm_saturates_near :
    (idleNode 5 65540).asksToConfirm 6000000 = some (min 65535 (65540 - 5)) :=
  (asksToConfirm_saturates_iff (s := idleNode 5 65540) rfl (by decide +kernel) rfl (by decide)
    (by decide)).mpr (by decide)

/-- A producer that has been idle for 65536 blocks confirms none. -/
theorem asksToConfirm_not_saturated :
    ¬ ∀ (s : Plugin) (now : ℤ) (w : ℕ), s.readOnly = false →
      s.MayProduce now (s.scheduledProducer now) →
      s.producerWatermarks (s.scheduledProducer now).producerName = some w →
      w < s.head.blockNum → s.head.blockNum < 2 ^ 32 →
      s.asksToConfirm now = some (min 65535 (s.head.blockNum - w)) := by
  intro h
  have hasks := h (idleNode 5 65541) 6000000 5 rfl (by decide +kernel) rfl (by decide) (by decide)
  exact absurd hasks (by decide +kernel)

end Plugin

end Xidata.Producer
