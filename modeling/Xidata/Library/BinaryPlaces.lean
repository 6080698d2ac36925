import Mathlib.Data.Rat.Floor
import Mathlib.Algebra.Order.Field.Power
import Mathlib.Tactic.FieldSimp
import Mathlib.Tactic.LinearCombination

/-!
Numbers with a fixed count of binary places: integers that are read over a power of two.
-/

namespace Xidata.BinaryPlaces

/-- The number that `n` stands for at `q` places. -/
def scaled (n : ℤ) (q : ℕ) : ℚ := n / 2 ^ q

/-- The integer towards zero. -/
def truncate (x : ℚ) : ℤ := if 0 ≤ x then ⌊x⌋ else ⌈x⌉

variable {m n : ℤ} {q r : ℕ}

theorem scaled_inj : scaled m q = scaled n q ↔ m = n := by
  rw [scaled, scaled, div_left_inj' (by positivity), Int.cast_inj]

theorem scaled_lt_scaled_iff : scaled m q < scaled n q ↔ m < n := by
  rw [scaled, scaled, div_lt_div_iff_of_pos_right (by positivity), Int.cast_lt]

/-- More places for the same number. -/
theorem scaled_shift (n : ℤ) (h : q ≤ r) : scaled (n * 2 ^ (r - q)) r = scaled n q := by
  rw [scaled, scaled, div_eq_div_iff (by positivity) (by positivity)]
  push_cast
  rw [mul_assoc, ← pow_add, Nat.sub_add_cancel h]

theorem scaled_add (m n : ℤ) (q : ℕ) : scaled (m + n) q = scaled m q + scaled n q := by
  rw [scaled, scaled, scaled, Int.cast_add, add_div]

theorem scaled_sub (m n : ℤ) (q : ℕ) : scaled (m - n) q = scaled m q - scaled n q := by
  rw [scaled, scaled, scaled, Int.cast_sub, sub_div]

theorem scaled_mul (m n : ℤ) (q r : ℕ) : scaled (m * n) (q + r) = scaled m q * scaled n r := by
  rw [scaled, scaled, scaled, Int.cast_mul, pow_add, div_mul_div_comm]

theorem truncate_neg (x : ℚ) : truncate (-x) = -truncate x := by
  unfold truncate
  obtain hneg | rfl | hpos := lt_trichotomy x 0
  · rw [if_pos (neg_nonneg.mpr hneg.le), if_neg hneg.not_ge, Int.floor_neg]
  · simp
  · rw [if_neg (by simpa using hpos), if_pos hpos.le, Int.ceil_neg]

/-- Division of integers towards zero. -/
theorem truncate_div (m n : ℤ) : truncate (m / n) = m.tdiv n := by
  have hnat : ∀ a b : ℕ, truncate ((a : ℚ) / (b : ℚ)) = (a : ℤ).tdiv b := fun a b => by
    have hfloor := Rat.floor_intCast_div_natCast a b
    rw [truncate, if_pos (by positivity), Int.tdiv_eq_ediv_of_nonneg (Int.natCast_nonneg a),
      ← hfloor, Int.cast_natCast]
  obtain ⟨a, rfl | rfl⟩ := Int.eq_nat_or_neg m <;> obtain ⟨b, rfl | rfl⟩ := Int.eq_nat_or_neg n
  · exact hnat a b
  · simpa [div_neg, truncate_neg] using hnat a b
  · simpa [neg_div, truncate_neg] using hnat a b
  · simpa [div_neg, neg_div] using hnat a b

/-- The quotient at `q + k - r` places. -/
theorem truncate_scaled_div {k : ℕ} (h : r ≤ q + k) :
    truncate (scaled m q / scaled n r * 2 ^ (q + k - r)) = (m * 2 ^ k).tdiv n := by
  have hsplit : (2 : ℚ) ^ r * 2 ^ (q + k - r) = 2 ^ q * 2 ^ k := by
    rw [← pow_add, ← pow_add, Nat.add_sub_cancel' h]
  rw [← truncate_div]
  congr 1
  by_cases hn : n = 0
  · simp [hn, scaled]
  · rw [scaled, scaled]
    push_cast
    field_simp
    linear_combination (m : ℚ) * hsplit

/-- The number of `q` places as one of `r` places, floored. -/
def rescale (n q r : ℕ) : ℕ := n * 2 ^ r / 2 ^ q

theorem rescale_of_le (n : ℕ) (h : r ≤ q) : rescale n q r = n / 2 ^ (q - r) := by
  have hsplit : 2 ^ q = 2 ^ (q - r) * 2 ^ r := by rw [← pow_add, Nat.sub_add_cancel h]
  rw [rescale, hsplit, Nat.mul_div_mul_right _ _ (by positivity)]

theorem rescale_of_ge (n : ℕ) (h : q ≤ r) : rescale n q r = n * 2 ^ (r - q) := by
  have hsplit : 2 ^ r = 2 ^ (r - q) * 2 ^ q := by rw [← pow_add, Nat.sub_add_cancel h]
  rw [rescale, hsplit, ← mul_assoc, Nat.mul_div_cancel _ (by positivity)]

end Xidata.BinaryPlaces
