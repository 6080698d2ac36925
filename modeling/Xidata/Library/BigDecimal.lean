import Mathlib.Data.Rat.Floor
import Mathlib.Tactic.Ring
import Mathlib.Tactic.Linarith
import Mathlib.Tactic.FieldSimp
import Mathlib.Algebra.Order.Field.Power

/-!
Decimals of unbounded precision: an integer and the number of decimal places it
is counted in. The operations work on the integers; what they compute is said
over the rationals, where rounding towards zero is a floor as long as nothing is
negative.
-/

structure BigDecimal where
  unscaled : ℤ
  scale : ℤ
  deriving DecidableEq, Repr

namespace BigDecimal

/-- The number a decimal stands for. -/
def value (a : BigDecimal) : ℚ := a.unscaled * (10 : ℚ) ^ (-a.scale)

def valueOf (n : ℤ) : BigDecimal := ⟨n, 0⟩

/-- The integer of the same number counted in `s` places, for an `s` that is not
below its own. -/
def unscaledAt (a : BigDecimal) (s : ℤ) : ℤ := a.unscaled * 10 ^ (s - a.scale).toNat

def multiply (a b : BigDecimal) : BigDecimal := ⟨a.unscaled * b.unscaled, a.scale + b.scale⟩

def subtract (a b : BigDecimal) : BigDecimal :=
  let s := max a.scale b.scale
  ⟨a.unscaledAt s - b.unscaledAt s, s⟩

def compareTo (a b : BigDecimal) : Ordering :=
  let s := max a.scale b.scale
  compare (a.unscaledAt s) (b.unscaledAt s)

/-- `n / d * 10 ^ e`, rounded towards zero. -/
def quotientAt (n d e : ℤ) : ℤ := (n * 10 ^ e.toNat).tdiv (d * 10 ^ (-e).toNat)

/-- The number in `s` places, rounded towards zero. -/
def setScale (a : BigDecimal) (s : ℤ) : BigDecimal := ⟨quotientAt a.unscaled 1 (s - a.scale), s⟩

/-- The quotient in `s` places, rounded towards zero; there is none by zero. -/
def divide (a b : BigDecimal) (s : ℤ) : Option BigDecimal :=
  if b.unscaled = 0 then none
  else some ⟨quotientAt a.unscaled b.unscaled (s + b.scale - a.scale), s⟩

/-! ### What the operations compute -/

theorem ten_zpow_pos (s : ℤ) : (0 : ℚ) < 10 ^ s := zpow_pos (by norm_num) s

theorem ten_zpow_add (s t : ℤ) : (10 : ℚ) ^ (s + t) = 10 ^ s * 10 ^ t :=
  zpow_add₀ (by norm_num) s t

theorem value_mul_zpow_scale (a : BigDecimal) : a.value * 10 ^ a.scale = a.unscaled := by
  rw [value, mul_assoc, ← ten_zpow_add, neg_add_cancel, zpow_zero, mul_one]

@[simp] theorem value_valueOf (n : ℤ) : (valueOf n).value = n := by
  simp [value, valueOf]

@[simp] theorem value_multiply (a b : BigDecimal) :
    (a.multiply b).value = a.value * b.value := by
  simp only [value, multiply, neg_add, ten_zpow_add, Int.cast_mul]
  ring

theorem unscaledAt_eq {a : BigDecimal} {s : ℤ} (h : a.scale ≤ s) :
    (a.unscaledAt s : ℚ) = a.value * 10 ^ s := by
  have hsplit : s = a.scale + (s - a.scale).toNat := by omega
  rw [unscaledAt, Int.cast_mul, ← value_mul_zpow_scale, mul_assoc]
  congr 1
  conv_rhs => rw [hsplit, ten_zpow_add, zpow_natCast]
  push_cast
  rfl

@[simp] theorem value_subtract (a b : BigDecimal) :
    (a.subtract b).value = a.value - b.value := by
  have ha := unscaledAt_eq (le_max_left a.scale b.scale)
  have hb := unscaledAt_eq (le_max_right a.scale b.scale)
  have hone : (10 : ℚ) ^ max a.scale b.scale * 10 ^ (-max a.scale b.scale) = 1 := by
    rw [← ten_zpow_add, add_neg_cancel, zpow_zero]
  show ((a.unscaledAt _ - b.unscaledAt _ : ℤ) : ℚ) * 10 ^ (-max a.scale b.scale) = _
  rw [Int.cast_sub, ha, hb, ← sub_mul, mul_assoc, hone, mul_one]

theorem compareTo_eq_eq_iff {a b : BigDecimal} : a.compareTo b = .eq ↔ a.value = b.value := by
  have ha := unscaledAt_eq (le_max_left a.scale b.scale)
  have hb := unscaledAt_eq (le_max_right a.scale b.scale)
  have hpos := ten_zpow_pos (max a.scale b.scale)
  rw [compareTo, compare_eq_iff_eq]
  constructor
  · intro h
    have heq : a.value * 10 ^ max a.scale b.scale = b.value * 10 ^ max a.scale b.scale := by
      rw [← ha, ← hb, h]
    exact mul_right_cancel₀ hpos.ne' heq
  · intro h
    have heq : (a.unscaledAt (max a.scale b.scale) : ℚ) = b.unscaledAt (max a.scale b.scale) := by
      rw [ha, hb, h]
    exact_mod_cast heq

theorem quotientAt_eq_floor {n d e : ℤ} (hn : 0 ≤ n) (hd : 0 < d) :
    quotientAt n d e = ⌊(n / d : ℚ) * 10 ^ e⌋ := by
  have hnum : 0 ≤ n * 10 ^ e.toNat := by positivity
  have hden : 0 < d * 10 ^ (-e).toNat := by positivity
  obtain ⟨m, hm⟩ := Int.eq_ofNat_of_zero_le hden.le
  have hsplit : e = e.toNat - (-e).toNat := by omega
  have hzpow : (10 : ℚ) ^ e = 10 ^ e.toNat / 10 ^ (-e).toNat := by
    conv_lhs => rw [hsplit, zpow_sub₀ (by norm_num), zpow_natCast, zpow_natCast]
  have hquot : (n / d : ℚ) * 10 ^ e = ((n * 10 ^ e.toNat : ℤ) : ℚ) / (m : ℕ) := by
    have hcast : ((m : ℕ) : ℚ) = ((d * 10 ^ (-e).toNat : ℤ) : ℚ) := by rw [hm]; rfl
    rw [hcast, hzpow]
    push_cast
    rw [div_mul_div_comm]
  rw [quotientAt, hquot, Rat.floor_intCast_div_natCast, Int.tdiv_eq_ediv_of_nonneg hnum, hm]

theorem unscaled_nonneg {a : BigDecimal} (h : 0 ≤ a.value) : 0 ≤ a.unscaled := by
  have hq : (0 : ℚ) ≤ a.unscaled := by
    rw [← value_mul_zpow_scale]
    exact mul_nonneg h (ten_zpow_pos _).le
  exact_mod_cast hq

theorem unscaled_pos {a : BigDecimal} (h : 0 < a.value) : 0 < a.unscaled := by
  have hq : (0 : ℚ) < a.unscaled := by
    rw [← value_mul_zpow_scale]
    exact mul_pos h (ten_zpow_pos _)
  exact_mod_cast hq

theorem setScale_eq {a : BigDecimal} {s : ℤ} (h : 0 ≤ a.value) :
    a.setScale s = ⟨⌊a.value * 10 ^ s⌋, s⟩ := by
  have hval : a.value * 10 ^ s = (a.unscaled / (1 : ℤ) : ℚ) * 10 ^ (s - a.scale) := by
    rw [Int.cast_one, div_one, ← value_mul_zpow_scale, mul_assoc, ← ten_zpow_add,
      add_sub_cancel]
  rw [setScale, quotientAt_eq_floor (unscaled_nonneg h) Int.one_pos, hval]

theorem divide_eq {a b : BigDecimal} {s : ℤ} (ha : 0 ≤ a.value) (hb : 0 < b.value) :
    a.divide b s = some ⟨⌊a.value / b.value * 10 ^ s⌋, s⟩ := by
  have hpos := unscaled_pos hb
  have hval : a.value / b.value * 10 ^ s =
      (a.unscaled / b.unscaled : ℚ) * 10 ^ (s + b.scale - a.scale) := by
    rw [← value_mul_zpow_scale a, ← value_mul_zpow_scale b, sub_eq_add_neg, ten_zpow_add,
      ten_zpow_add, zpow_neg]
    have h₁ := (ten_zpow_pos a.scale).ne'
    have h₂ := (ten_zpow_pos b.scale).ne'
    field_simp
  rw [divide, if_neg hpos.ne', quotientAt_eq_floor (unscaled_nonneg ha) hpos, hval]

end BigDecimal
