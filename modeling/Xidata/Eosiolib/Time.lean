import Xidata.Eosiolib.Types

/-!
Times of the contract library.  A block has the half second that it is made in as its
time, a slot counted from the year 2000; other times count microseconds or seconds from 1970.
-/

namespace Xidata.Eosiolib

structure Microseconds where
  count : Int64
  deriving DecidableEq

def seconds (s : Int64) : Microseconds := ⟨s * 1000000⟩

def milliseconds (s : Int64) : Microseconds := ⟨s * 1000⟩

structure TimePoint where
  elapsed : Microseconds
  deriving DecidableEq

namespace TimePoint

instance : LE TimePoint := ⟨fun t t' => t.elapsed.count ≤ t'.elapsed.count⟩

instance : LT TimePoint := ⟨fun t t' => t.elapsed.count < t'.elapsed.count⟩

instance : HAdd TimePoint Microseconds TimePoint :=
  ⟨fun t m => ⟨⟨t.elapsed.count + m.count⟩⟩⟩

end TimePoint

/-- A time in seconds. -/
structure TimePointSec where
  utcSeconds : UInt32
  deriving DecidableEq

def TimePointSec.toTimePoint (t : TimePointSec) : TimePoint :=
  ⟨seconds t.utcSeconds.toUInt64.toInt64⟩

structure BlockTimestamp where
  slot : UInt32
  deriving DecidableEq

namespace BlockTimestamp

def blockIntervalMs : Int32 := 500

/-- The epoch is year 2000. -/
def blockTimestampEpoch : Int64 := 946684800000

def toTimePoint (b : BlockTimestamp) : TimePoint :=
  let msec := b.slot.toUInt64.toInt64 * blockIntervalMs.toInt64
  let msec := msec + blockTimestampEpoch
  ⟨milliseconds msec⟩

/-- `set_time_point` of a time in microseconds. -/
def ofTimePoint (t : TimePoint) : BlockTimestamp :=
  let microSinceEpoch := t.elapsed.count
  let msecSinceEpoch := microSinceEpoch / 1000
  ⟨((msecSinceEpoch - blockTimestampEpoch) / blockIntervalMs.toInt64).toUInt64.toUInt32⟩

/-- `set_time_point` of a time in seconds. -/
def ofTimePointSec (t : TimePointSec) : BlockTimestamp :=
  let secSinceEpoch := t.utcSeconds.toUInt64.toInt64
  ⟨((secSinceEpoch * 1000 - blockTimestampEpoch) / blockIntervalMs.toInt64).toUInt64.toUInt32⟩

/-! ### The slots on the line of microseconds -/

/-- Where slot `n` starts. -/
def slotTime (n : ℤ) : ℤ := (946684800000 + n * 500) * 1000

/-- The times that lie in a slot of 32 bits. -/
def HasSlot (t : TimePoint) : Prop :=
  slotTime 0 ≤ t.elapsed.count.toInt ∧ t.elapsed.count.toInt < slotTime (2 ^ 32)

theorem toInt_mul_of_eq {x y : Int64} {m n : ℤ} (hx : x.toInt = m) (hy : y.toInt = n)
    (h : -2 ^ 63 ≤ m * n) (h' : m * n < 2 ^ 63) : (x * y).toInt = m * n := by
  subst hx hy
  exact toInt_mul_of_bounds h h'

theorem toInt_blockIntervalMs : blockIntervalMs.toInt64.toInt = 500 := rfl

theorem toInt_blockTimestampEpoch : blockTimestampEpoch.toInt = 946684800000 := rfl

theorem count_toTimePoint (b : BlockTimestamp) :
    b.toTimePoint.elapsed.count.toInt = slotTime b.slot.toNat := by
  have hlt := b.slot.toNat_lt
  have hepoch := toInt_blockTimestampEpoch
  have hmul : (b.slot.toUInt64.toInt64 * blockIntervalMs.toInt64).toInt = b.slot.toNat * 500 :=
    toInt_mul_of_eq (toInt_toUInt64 b.slot) toInt_blockIntervalMs (by omega) (by omega)
  have hmsec : (b.slot.toUInt64.toInt64 * blockIntervalMs.toInt64 + blockTimestampEpoch).toInt =
      946684800000 + b.slot.toNat * 500 := by
    rw [toInt_add_of_bounds (by omega) (by omega), hmul, hepoch]
    omega
  exact toInt_mul_of_eq hmsec rfl (by omega) (by omega)

theorem hasSlot_toTimePoint (b : BlockTimestamp) : HasSlot b.toTimePoint := by
  have hlt := b.slot.toNat_lt
  unfold HasSlot
  rw [count_toTimePoint]
  unfold slotTime
  omega

theorem toNat_toUInt32_of_bounds {x : Int64} (h : 0 ≤ x.toInt) (h' : x.toInt < 2 ^ 32) :
    (x.toUInt64.toUInt32.toNat : ℤ) = x.toInt := by
  have hbits := toNat_toUInt64 h
  rw [UInt64.toNat_toUInt32]
  omega

/-- The two truncating divisions are one floor division, from the epoch on. -/
theorem slot_ofTimePoint {t : TimePoint} (h : HasSlot t) :
    ((ofTimePoint t).slot.toNat : ℤ) = (t.elapsed.count.toInt - slotTime 0) / 500000 := by
  obtain ⟨hstart, hend⟩ := h
  unfold slotTime at hstart hend
  have hepoch := toInt_blockTimestampEpoch
  have hmsec : (t.elapsed.count / 1000).toInt = t.elapsed.count.toInt / 1000 := by
    rw [Int64.toInt_div_of_ne_right _ _ (by decide)]
    exact Int.tdiv_eq_ediv_of_nonneg (by omega)
  have hsince : (t.elapsed.count / 1000 - blockTimestampEpoch).toInt =
      t.elapsed.count.toInt / 1000 - 946684800000 := by
    rw [toInt_sub_of_bounds (by omega) (by omega), hmsec, hepoch]
  have hslot : ((t.elapsed.count / 1000 - blockTimestampEpoch) / blockIntervalMs.toInt64).toInt =
      (t.elapsed.count.toInt / 1000 - 946684800000) / 500 := by
    rw [Int64.toInt_div_of_ne_right _ _ (by decide), hsince, toInt_blockIntervalMs]
    exact Int.tdiv_eq_ediv_of_nonneg (by omega)
  have hbits := toNat_toUInt32_of_bounds (by rw [hslot]; omega) (by rw [hslot]; omega)
  rw [ofTimePoint, hbits, hslot, slotTime]
  omega

/-- A time lies in its slot. -/
theorem slotTime_bounds {t : TimePoint} (h : HasSlot t) :
    slotTime (ofTimePoint t).slot.toNat ≤ t.elapsed.count.toInt ∧
      t.elapsed.count.toInt < slotTime (ofTimePoint t).slot.toNat + 500000 := by
  have hslot := slot_ofTimePoint h
  unfold slotTime at hslot ⊢
  omega

theorem ofTimePoint_toTimePoint (b : BlockTimestamp) : ofTimePoint b.toTimePoint = b := by
  have hslot := slot_ofTimePoint (hasSlot_toTimePoint b)
  rw [count_toTimePoint] at hslot
  unfold slotTime at hslot
  rw [BlockTimestamp.mk.injEq, ← UInt32.toNat_inj]
  omega

theorem slot_mono {t t' : TimePoint} (h : HasSlot t) (h' : HasSlot t') (hle : t ≤ t') :
    (ofTimePoint t).slot ≤ (ofTimePoint t').slot := by
  have hcount : t.elapsed.count.toInt ≤ t'.elapsed.count.toInt := Int64.le_iff_toInt_le.mp hle
  have hslots : ((ofTimePoint t).slot.toNat : ℤ) ≤ (ofTimePoint t').slot.toNat := by
    rw [slot_ofTimePoint h, slot_ofTimePoint h']
    exact Int.ediv_le_ediv (by decide) (by omega)
  exact UInt32.le_iff_toNat_le.mpr (Int.ofNat_le.mp hslots)

theorem toTimePoint_slot_le {t : TimePoint} (h : HasSlot t) : (ofTimePoint t).toTimePoint ≤ t := by
  apply Int64.le_iff_toInt_le.mpr
  rw [count_toTimePoint]
  exact (slotTime_bounds h).1

theorem lt_next_toTimePoint {t : TimePoint} (h : HasSlot t) :
    t < (ofTimePoint t).toTimePoint + milliseconds 500 := by
  have hlt := (ofTimePoint t).slot.toNat_lt
  have hcount := count_toTimePoint (ofTimePoint t)
  have hhalf : (milliseconds 500).count.toInt = 500000 := rfl
  have hnext : ((ofTimePoint t).toTimePoint.elapsed.count + (milliseconds 500).count).toInt =
      slotTime (ofTimePoint t).slot.toNat + 500000 := by
    unfold slotTime at hcount ⊢
    rw [toInt_add_of_bounds (by omega) (by omega), hcount, hhalf]
  apply Int64.lt_iff_toInt_lt.mpr
  show t.elapsed.count.toInt <
    ((ofTimePoint t).toTimePoint.elapsed.count + (milliseconds 500).count).toInt
  rw [hnext]
  exact (slotTime_bounds h).2

/-- Whole seconds are whole milliseconds, also before the epoch. -/
theorem ofTimePointSec_eq (t : TimePointSec) : ofTimePointSec t = ofTimePoint t.toTimePoint := by
  have hlt := t.utcSeconds.toNat_lt
  have hsec := toInt_toUInt64 t.utcSeconds
  have hmicro : (t.utcSeconds.toUInt64.toInt64 * 1000000).toInt = t.utcSeconds.toNat * 1000000 :=
    toInt_mul_of_eq hsec rfl (by omega) (by omega)
  have hmsec : (t.utcSeconds.toUInt64.toInt64 * 1000).toInt = t.utcSeconds.toNat * 1000 :=
    toInt_mul_of_eq hsec rfl (by omega) (by omega)
  have heq : t.utcSeconds.toUInt64.toInt64 * 1000000 / 1000 =
      t.utcSeconds.toUInt64.toInt64 * 1000 := by
    apply Int64.toInt_inj.mp
    have hthousand : (1000 : Int64).toInt = 1000 := rfl
    rw [Int64.toInt_div_of_ne_right _ _ (by decide), hmicro, hmsec, hthousand,
      Int.tdiv_eq_ediv_of_nonneg (by omega)]
    omega
  rw [ofTimePointSec, ofTimePoint, TimePointSec.toTimePoint, seconds, heq]

/-- Slots and times are converted one into the other without loss: a slot is that of its own
time, later times have later slots, a time lies in the half second of its slot, and a time in
seconds has the slot of the same time in microseconds. -/
theorem slots_exact :
    (∀ b : BlockTimestamp, ofTimePoint b.toTimePoint = b) ∧
      (∀ t t' : TimePoint, t ≤ t' → HasSlot t → HasSlot t' →
        (ofTimePoint t).slot ≤ (ofTimePoint t').slot) ∧
      (∀ t : TimePoint, HasSlot t →
        (ofTimePoint t).toTimePoint ≤ t ∧ t < (ofTimePoint t).toTimePoint + milliseconds 500) ∧
      ∀ t : TimePointSec, ofTimePointSec t = ofTimePoint t.toTimePoint :=
  ⟨ofTimePoint_toTimePoint, fun _ _ hle h h' => slot_mono h h' hle,
    fun _ h => ⟨toTimePoint_slot_le h, lt_next_toTimePoint h⟩, ofTimePointSec_eq⟩

/-- The first second of 2001. -/
example : (ofTimePointSec ⟨978307200⟩).slot = (978307200 - 946684800) * 2 := by decide

end BlockTimestamp

end Xidata.Eosiolib
