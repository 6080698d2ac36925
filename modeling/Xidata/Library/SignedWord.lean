import Mathlib.Algebra.Order.Ring.Int
import Mathlib.Tactic.Positivity
import Mathlib.Tactic.Ring

/-!
Words of two's complement as integers.  An operation on words is the operation on integers
wherever the result fits the word.
-/

namespace Xidata.SignedWord

variable {w : ℕ} {m n : ℤ}

/-- A signed word of `w` bits has room for `n`. -/
def Fits (w : ℕ) (n : ℤ) : Prop := -2 ^ (w - 1) ≤ n ∧ n < 2 ^ (w - 1)

instance : Decidable (Fits w n) := inferInstanceAs (Decidable (_ ∧ _))

theorem fits_toInt (x : BitVec w) : Fits w x.toInt := ⟨x.le_toInt, BitVec.toInt_lt⟩

theorem bmod_eq_self_iff (hw : 0 < w) : n.bmod (2 ^ w) = n ↔ Fits w n := by
  obtain ⟨k, rfl⟩ := Nat.exists_eq_succ_of_ne_zero hw.ne'
  have hpow : ((2 ^ (k + 1) : ℕ) : ℤ) = 2 * 2 ^ k := by
    push_cast
    ring
  have hpos : (0 : ℤ) < 2 ^ k := by positivity
  rw [Fits, Nat.succ_sub_one, Int.bmod_eq_iff (by positivity), Nat.succ_eq_add_one, hpow]
  constructor
  · rintro ⟨hlow, hhigh, -⟩
    omega
  · rintro ⟨hlow, hhigh⟩
    exact ⟨by omega, by omega, by simp⟩

theorem bmod_of_fits (hw : 0 < w) (h : Fits w n) : n.bmod (2 ^ w) = n :=
  (bmod_eq_self_iff hw).mpr h

theorem Fits.abs_le_pow (h : Fits w n) : |n| ≤ 2 ^ (w - 1) := abs_le.mpr ⟨h.1, h.2.le⟩

theorem fits_of_abs_lt (h : |n| < 2 ^ (w - 1)) : Fits w n :=
  ⟨(abs_lt.mp h).1.le, (abs_lt.mp h).2⟩

theorem fits_natCast {l : ℕ} (h : l < 2 ^ (w - 1)) : Fits w l :=
  fits_of_abs_lt (by rw [Nat.abs_cast]; exact_mod_cast h)

theorem Fits.shift (h : Fits w n) (hw : 0 < w) (k : ℕ) : Fits (w + k) (n * 2 ^ k) := by
  have hpow : (2 : ℤ) ^ (w + k - 1) = 2 ^ (w - 1) * 2 ^ k := by
    rw [← pow_add, Nat.sub_add_comm hw]
  obtain ⟨hlow, hhigh⟩ := h
  rw [Fits, hpow, ← neg_mul]
  exact ⟨mul_le_mul_of_nonneg_right hlow (by positivity),
    mul_lt_mul_of_pos_right hhigh (by positivity)⟩

/-- A word of twice the width has room for every product. -/
theorem Fits.mul (h : Fits w m) (h' : Fits w n) (hw : 0 < w) : Fits (2 * w) (m * n) := by
  apply fits_of_abs_lt
  calc
    |m * n| = |m| * |n| := abs_mul m n
    _ ≤ 2 ^ (w - 1) * 2 ^ (w - 1) :=
      mul_le_mul h.abs_le_pow h'.abs_le_pow (abs_nonneg n) (by positivity)
    _ = 2 ^ (w - 1 + (w - 1)) := (pow_add 2 (w - 1) (w - 1)).symm
    _ < 2 ^ (2 * w - 1) := pow_lt_pow_right₀ (by decide) (by omega)

/-! ### The operations -/

theorem toInt_shiftLeft (x : BitVec w) (k : ℕ) :
    (x <<< k).toInt = (x.toInt * 2 ^ k).bmod (2 ^ w) := by
  rw [BitVec.toInt_shiftLeft, BitVec.toInt_eq_toNat_bmod, Int.bmod_mul_bmod, Nat.shiftLeft_eq]
  push_cast
  rfl

theorem toInt_sshiftRight (x : BitVec w) (k : ℕ) : (x.sshiftRight k).toInt = x.toInt / 2 ^ k := by
  rw [BitVec.toInt_sshiftRight, Int.shiftRight_eq_div_pow]
  push_cast
  rfl

end Xidata.SignedWord
