import Xidata.Library.RoundRobin
import Xidata.Producer.Plugin

/-!
When a producer wakes up for its next block.  The plugin computes in machine words: slots and
block numbers of 32 bits, indices of 64.  Over natural numbers the result is the next slot of
the producer in a round robin, and it lies beyond the watermark.
-/

namespace Xidata.Producer

open Eosiolib (AccountName)

namespace Plugin

variable {s : Plugin} {producer : AccountName} {producerRepetitions currentSlot slot i : ℕ}

/-! ### The computation -/

/-- The number of the head, or of the block that is pending over it. -/
def currentBlockNum (s : Plugin) : ℕ :=
  if s.pending.isSome then (s.head.blockNum + 1) % 2 ^ 32 else s.head.blockNum

/-- At least the next block, and one after the watermark of the producer if that is still to
come and no block is dropped until then. -/
def minimumOffset (s : Plugin) (producer : AccountName) : ℕ :=
  match s.producerWatermarks producer with
  | none => 1
  | some watermark =>
    if watermark > s.currentBlockNum then (watermark - s.currentBlockNum + 1) % 2 ^ 32 else 1

/-- The difference of two indices, where an underflow is seen at the result. -/
def producerDistance (size producerIndex minimumIndex : ℕ) : ℕ :=
  let distance := (2 ^ 64 + producerIndex - minimumIndex) % 2 ^ 64
  if distance > producerIndex then (distance + size) % 2 ^ 64 else distance

def nextBlockSlot (producerRepetitions size producerIndex minimumSlot : ℕ) : ℕ :=
  let minimumIndex := minimumSlot % (size * producerRepetitions % 2 ^ 64) / producerRepetitions
  if producerIndex = minimumIndex then minimumSlot
  else
    (minimumSlot - minimumSlot % producerRepetitions +
      producerDistance size producerIndex minimumIndex * producerRepetitions) % 2 ^ 32

/-- `toTimePoint` is the time of a slot; the block that is current now has `currentSlot`. -/
def calculateNextBlockTime (toTimePoint : ℕ → ℤ) (producerRepetitions : ℕ) (s : Plugin)
    (producer : AccountName) (currentSlot : ℕ) : Option ℤ :=
  let activeSchedule := s.head.activeSchedule.names
  match activeSchedule.findIdx? (· = producer) with
  | none => none
  | some producerIndex =>
    let minimumSlot := (currentSlot + s.minimumOffset producer) % 2 ^ 32
    some (toTimePoint
      (nextBlockSlot producerRepetitions activeSchedule.length producerIndex minimumSlot))

/-- Wake up with a full block interval to the deadline of this producer, if not before. -/
def wakeUpFor (nextProducerBlockTime wakeUp : Option ℤ) : Option ℤ :=
  match nextProducerBlockTime, wakeUp with
  | none, wakeUp => wakeUp
  | some next, none => some (next - blockInterval)
  | some next, some time => some (min time (next - blockInterval))

/-- What `schedule_delayed_production_loop` sets the timer to, if it sets it. -/
def wakeUpTime (toTimePoint : ℕ → ℤ) (producerRepetitions : ℕ) (s : Plugin)
    (currentSlot : ℕ) : Option ℤ :=
  s.producers.foldl
    (fun wakeUp producer => wakeUpFor
      (calculateNextBlockTime toTimePoint producerRepetitions s producer currentSlot) wakeUp)
    none

/-! ### Over natural numbers -/

/-- The number of the block that is current, as long as it is a number of 32 bits. -/
def blockNum (s : Plugin) : ℕ :=
  s.head.blockNum + if s.pending.isSome then 1 else 0

theorem currentBlockNum_eq (h : s.head.blockNum + 1 < 2 ^ 32) :
    s.currentBlockNum = s.blockNum := by
  unfold currentBlockNum blockNum
  split
  · exact Nat.mod_eq_of_lt h
  · rfl

/-- How many slots the watermark of a producer keeps it waiting. -/
def leastOffset (blockNum : ℕ) : Option ℕ → ℕ
  | none => 1
  | some watermark => if blockNum < watermark then watermark - blockNum + 1 else 1

theorem minimumOffset_eq
    (h : leastOffset s.currentBlockNum (s.producerWatermarks producer) < 2 ^ 32) :
    s.minimumOffset producer =
      leastOffset s.currentBlockNum (s.producerWatermarks producer) := by
  unfold minimumOffset
  cases hw : s.producerWatermarks producer with
  | none => rfl
  | some watermark =>
      rw [hw] at h
      simp only [leastOffset] at h ⊢
      split
      next hlt =>
        rw [if_pos hlt] at h
        exact Nat.mod_eq_of_lt h
      next => rfl

theorem producerDistance_eq {size minimumIndex : ℕ} (hi : i < size) (hmin : minimumIndex < size)
    (hsize : size < 2 ^ 64) :
    producerDistance size i minimumIndex = RoundRobin.distance size minimumIndex i := by
  unfold producerDistance RoundRobin.distance
  by_cases hle : minimumIndex ≤ i
  · have hd : (2 ^ 64 + i - minimumIndex) % 2 ^ 64 = i - minimumIndex := by omega
    rw [hd, if_neg (by omega), if_pos hle]
  · have hd : (2 ^ 64 + i - minimumIndex) % 2 ^ 64 = 2 ^ 64 + i - minimumIndex := by omega
    rw [hd, if_pos (by omega), if_neg hle]
    omega

/-- Where nothing overflows, the slot is the next one in the round robin. -/
theorem nextBlockSlot_eq {size minimumSlot : ℕ} (hr : 0 < producerRepetitions) (hi : i < size)
    (hround : size * producerRepetitions < 2 ^ 64)
    (hslot : RoundRobin.next size producerRepetitions i minimumSlot < 2 ^ 32) :
    nextBlockSlot producerRepetitions size i minimumSlot =
      RoundRobin.next size producerRepetitions i minimumSlot := by
  have hsize : size < 2 ^ 64 := (Nat.le_mul_of_pos_right size hr).trans_lt hround
  have hturn : RoundRobin.turn size producerRepetitions minimumSlot < size :=
    RoundRobin.turn_lt (by omega)
  simp only [nextBlockSlot, Nat.mod_eq_of_lt hround]
  change (if i = RoundRobin.turn size producerRepetitions minimumSlot then minimumSlot
    else (minimumSlot - minimumSlot % producerRepetitions +
      producerDistance size i (RoundRobin.turn size producerRepetitions minimumSlot) *
        producerRepetitions) % 2 ^ 32) = _
  rw [producerDistance_eq hi hturn hsize]
  unfold RoundRobin.next at hslot ⊢
  by_cases h : RoundRobin.turn size producerRepetitions minimumSlot = i
  · rw [if_pos h.symm, if_pos h]
  · rw [if_neg (Ne.symm h), if_neg h]
    rw [if_neg h] at hslot
    exact Nat.mod_eq_of_lt hslot

theorem findIdx?_names_eq {names : List AccountName} (hnodup : names.Nodup)
    (hi : names[i]? = some producer) : names.findIdx? (· = producer) = some i := by
  obtain ⟨hlt, hget⟩ := List.getElem?_eq_some_iff.mp hi
  rw [List.findIdx?_eq_some_iff_getElem]
  refine ⟨hlt, decide_eq_true hget, fun j hj => ?_⟩
  have hne : names[j] ≠ producer := by
    rw [← hget]
    exact fun heq => hj.ne ((hnodup.getElem_inj_iff).mp heq)
  simpa using hne

theorem calculateNextBlockTime_eq_none_iff (toTimePoint : ℕ → ℤ) (producerRepetitions : ℕ)
    (s : Plugin) (producer : AccountName) (currentSlot : ℕ) :
    calculateNextBlockTime toTimePoint producerRepetitions s producer currentSlot = none ↔
      producer ∉ s.head.activeSchedule.names := by
  unfold calculateNextBlockTime
  cases hidx : s.head.activeSchedule.names.findIdx? (· = producer) with
  | none =>
      have hnone := List.findIdx?_eq_none_iff.mp hidx
      simp only [hidx, true_iff]
      intro hmem
      exact absurd rfl (of_decide_eq_false (hnone producer hmem))
  | some j =>
      obtain ⟨hlt, hget, -⟩ := List.findIdx?_eq_some_iff_getElem.mp hidx
      have hmem : producer ∈ s.head.activeSchedule.names :=
        of_decide_eq_true hget ▸ List.getElem_mem hlt
      simp only [hidx, reduceCtorEq, false_iff, not_not]
      exact hmem

/-- The time of the next slot of the producer from the least allowed one on. -/
theorem calculateNextBlockTime_eq_some (toTimePoint : ℕ → ℤ) (hr : 0 < producerRepetitions)
    (hnodup : s.head.activeSchedule.names.Nodup)
    (hround : s.head.activeSchedule.names.length * producerRepetitions < 2 ^ 64)
    (hi : s.head.activeSchedule.names[i]? = some producer)
    (hslot : RoundRobin.next s.head.activeSchedule.names.length producerRepetitions i
      (currentSlot + leastOffset s.currentBlockNum (s.producerWatermarks producer)) < 2 ^ 32) :
    calculateNextBlockTime toTimePoint producerRepetitions s producer currentSlot =
      some (toTimePoint (RoundRobin.next s.head.activeSchedule.names.length producerRepetitions i
        (currentSlot + leastOffset s.currentBlockNum (s.producerWatermarks producer)))) := by
  have hlt : i < s.head.activeSchedule.names.length := (List.getElem?_eq_some_iff.mp hi).1
  have hleast := RoundRobin.isLeast_next hr hlt
    (currentSlot + leastOffset s.currentBlockNum (s.producerWatermarks producer))
  have hfits : currentSlot + leastOffset s.currentBlockNum (s.producerWatermarks producer) <
      2 ^ 32 := hleast.1.1.trans_lt hslot
  have hmin : s.minimumOffset producer =
      leastOffset s.currentBlockNum (s.producerWatermarks producer) :=
    minimumOffset_eq (by omega)
  simp only [calculateNextBlockTime, findIdx?_names_eq hnodup hi, hmin, Nat.mod_eq_of_lt hfits,
    nextBlockSlot_eq hr hlt hround hslot]

/-! ### The slot and the watermark -/

/-- From the current block on, every slot has a block. -/
structure NoSlotMissed (currentSlot currentBlockNum : ℕ) (blockNumAt : ℕ → ℕ) : Prop where
  current : currentBlockNum ≤ blockNumAt currentSlot
  next : ∀ t, currentSlot ≤ t → blockNumAt (t + 1) = blockNumAt t + 1

theorem NoSlotMissed.blockNumAt_eq {blockNum : ℕ} {blockNumAt : ℕ → ℕ}
    (h : NoSlotMissed currentSlot blockNum blockNumAt) (k : ℕ) :
    blockNumAt (currentSlot + k) = blockNumAt currentSlot + k := by
  induction k with
  | zero => rfl
  | succ k ih =>
      rw [← Nat.add_assoc, h.next _ (Nat.le_add_right _ _), ih, Nat.add_assoc]

theorem NoSlotMissed.watermark_lt {blockNum watermark : ℕ} {blockNumAt : ℕ → ℕ}
    (h : NoSlotMissed currentSlot blockNum blockNumAt)
    (hslot : currentSlot + leastOffset blockNum (some watermark) ≤ slot) :
    watermark < blockNumAt slot := by
  obtain ⟨k, rfl⟩ := Nat.exists_eq_add_of_le ((Nat.le_add_right _ _).trans hslot)
  have hcurrent := h.current
  rw [h.blockNumAt_eq]
  simp only [leastOffset] at hslot
  split at hslot <;> omega

/-- Nothing for a producer out of the schedule.  For the one at index `i` it is the time of the
least slot of its turn that is far enough ahead, and if no slot is missed until then, the block
made there is numbered above the watermark. -/
theorem calculateNextBlockTime_spec (toTimePoint : ℕ → ℤ) (hr : 1 ≤ producerRepetitions)
    (s : Plugin) (hnodup : s.head.activeSchedule.names.Nodup)
    (hround : s.head.activeSchedule.names.length * producerRepetitions < 2 ^ 64)
    (hnum : s.head.blockNum + 1 < 2 ^ 32) (producer : AccountName) (currentSlot : ℕ) :
    (calculateNextBlockTime toTimePoint producerRepetitions s producer currentSlot = none ↔
        producer ∉ s.head.activeSchedule.names) ∧
      ∀ i, s.head.activeSchedule.names[i]? = some producer →
        ∃ slot,
          IsLeast {t | currentSlot + leastOffset s.blockNum (s.producerWatermarks producer) ≤ t ∧
            t % (s.head.activeSchedule.names.length * producerRepetitions) /
              producerRepetitions = i} slot ∧
          (slot < 2 ^ 32 →
            calculateNextBlockTime toTimePoint producerRepetitions s producer currentSlot =
              some (toTimePoint slot)) ∧
          ∀ blockNumAt, NoSlotMissed currentSlot s.blockNum blockNumAt →
            ∀ watermark, s.producerWatermarks producer = some watermark →
              watermark < blockNumAt slot := by
  refine ⟨calculateNextBlockTime_eq_none_iff _ _ _ _ _, fun i hi => ?_⟩
  have hlt : i < s.head.activeSchedule.names.length := (List.getElem?_eq_some_iff.mp hi).1
  have hleast := RoundRobin.isLeast_next hr hlt
    (currentSlot + leastOffset s.blockNum (s.producerWatermarks producer))
  rw [← currentBlockNum_eq hnum] at hleast ⊢
  refine ⟨_, hleast, calculateNextBlockTime_eq_some toTimePoint hr hnodup hround hi, ?_⟩
  intro blockNumAt hchain watermark hw
  rw [hw] at hleast
  rw [hw]
  exact hchain.watermark_lt hleast.1.1

/-- Two producers, the first of them with a watermark three blocks ahead of the head. -/
def twoProducers : Plugin where
  producers := [1]
  signatureProviders := []
  producerWatermarks := fun producer => if producer = 1 then some 8 else none
  head := { blockNum := 5, activeSchedule := { producers := [⟨1, {}⟩, ⟨2, {}⟩] } }

theorem calculateNextBlockTime_twoProducers :
    ∃ slot,
      IsLeast {t | 10 + leastOffset 5 (some 8) ≤ t ∧ t % (2 * 2) / 2 = 0} slot ∧
        (slot < 2 ^ 32 → calculateNextBlockTime (fun t => t) 2 twoProducers 1 10 = some slot) ∧
        ∀ blockNumAt, NoSlotMissed 10 5 blockNumAt →
          ∀ watermark, some 8 = some watermark → watermark < blockNumAt slot :=
  (calculateNextBlockTime_spec (fun t => (t : ℤ)) (by decide) twoProducers (by decide)
    (by decide) (by decide) 1 10).2 0 rfl

/-! ### The timer -/

theorem foldl_wakeUpFor (next : AccountName → Option ℤ) (producers : List AccountName)
    (wakeUp : Option ℤ) :
    producers.foldl (fun wakeUp producer => wakeUpFor (next producer) wakeUp) wakeUp =
      (wakeUp.toList ++ (producers.filterMap next).map (· - blockInterval)).min? := by
  induction producers generalizing wakeUp with
  | nil => cases wakeUp <;> rfl
  | cons producer rest ih =>
      rw [List.foldl_cons, ih]
      cases hnext : next producer with
      | none => rw [List.filterMap_cons_none hnext]; rfl
      | some time =>
          rw [List.filterMap_cons_some hnext]
          cases wakeUp with
          | none => rfl
          | some first =>
              simp only [wakeUpFor, Option.toList_some, List.singleton_append, List.map_cons,
                List.min?_cons', List.foldl_cons]

/-- The timer is set if a local producer is in the schedule, and then to the earliest of their
wake-up times. -/
theorem wakeUpTime_eq (toTimePoint : ℕ → ℤ) (producerRepetitions : ℕ) (s : Plugin)
    (currentSlot : ℕ) :
    wakeUpTime toTimePoint producerRepetitions s currentSlot =
      ((s.producers.filterMap fun producer =>
        calculateNextBlockTime toTimePoint producerRepetitions s producer currentSlot).map
          (· - blockInterval)).min? :=
  foldl_wakeUpFor _ _ none

theorem wakeUpTime_eq_none_iff (toTimePoint : ℕ → ℤ) (producerRepetitions : ℕ) (s : Plugin)
    (currentSlot : ℕ) :
    wakeUpTime toTimePoint producerRepetitions s currentSlot = none ↔
      ∀ producer ∈ s.producers, producer ∉ s.head.activeSchedule.names := by
  rw [wakeUpTime_eq, List.min?_eq_none_iff, List.map_eq_nil_iff, List.filterMap_eq_nil_iff]
  simp only [calculateNextBlockTime_eq_none_iff]

end Plugin

end Xidata.Producer
