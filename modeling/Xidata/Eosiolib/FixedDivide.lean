import Xidata.Eosiolib.FixedArithmetic

/-!
Comparisons of fixed point numbers, which compare what is stored, and the quotients of
integers as fixed point numbers.
-/

namespace Xidata.Eosiolib

open BinaryPlaces SignedWord FixedPoint

/-- `fixed_divide` of 32 bits, by signed words. -/
def fixedDivide32 (Q : ℕ) (lhs rhs : UInt32) : Outcome (FixedPoint64 Q) := do
  if rhs = 0 then throw (.assertion "divide by zero")
  let lhs : FixedPoint32 0 := ⟨lhs.toBitVec⟩
  let rhs : FixedPoint32 0 := ⟨rhs.toBitVec⟩
  let quotient ← FixedPoint32.div lhs rhs
  FixedPoint64.ofFixedPoint64 Q quotient

/-- `fixed_divide` of 64 bits; the operands are cut to signed words of 32 bits. -/
def fixedDivide64 (Q : ℕ) (lhs rhs : UInt64) : Outcome (FixedPoint128 Q) := do
  if rhs = 0 then throw (.assertion "divide by zero")
  let lhs : FixedPoint64 0 := ⟨(lhs.toBitVec.setWidth 32).signExtend 64⟩
  let rhs : FixedPoint64 0 := ⟨(rhs.toBitVec.setWidth 32).signExtend 64⟩
  let quotient ← FixedPoint64.div lhs rhs
  FixedPoint128.ofFixedPoint128 Q quotient

namespace FixedPoint

variable {w Q QR : ℕ}

/-! ### Comparisons -/

theorem beq_iff (a : FixedPoint w Q) (b : FixedPoint w QR) :
    a.beq b = true ↔ a.val.toInt = b.val.toInt := by
  rw [beq, decide_eq_true_iff, BitVec.toInt_inj]

theorem lt_iff (a : FixedPoint w Q) (b : FixedPoint w QR) :
    a.lt b = true ↔ a.val.toInt < b.val.toInt := BitVec.slt_iff_toInt_lt

theorem gt_iff (a : FixedPoint w Q) (b : FixedPoint w QR) :
    a.gt b = true ↔ b.val.toInt < a.val.toInt := BitVec.slt_iff_toInt_lt

/-! ### Quotients of integers -/

theorem div_natCast (hw : 32 ≤ w) {a b : FixedPoint w 0} {l r : ℕ} (ha : a.val.toInt = l)
    (hb : b.val.toInt = r) (hr : r ≠ 0) :
    ∃ s, div a b = .ok s ∧ s.val.toInt = (l * 2 ^ w / r : ℕ) := by
  have hchecked : b.ZeroChecked := ⟨by omega, .inl (by decide)⟩
  have hne : b.val ≠ 0 := by
    rintro hzero
    rw [hzero] at hb
    simp at hb
    omega
  have hquotient : (a.val.toInt * 2 ^ w).tdiv b.val.toInt = (l * 2 ^ w / r : ℕ) := by
    rw [ha, hb, Int.tdiv_eq_ediv_of_nonneg (by positivity)]
    push_cast
    rfl
  have hl : l < 2 ^ (w - 1) := by
    have hhigh := (fits_toInt a.val).2
    rw [ha] at hhigh
    exact_mod_cast hhigh
  have hfits : Fits (2 * w) ((a.val.toInt * 2 ^ w).tdiv b.val.toInt) := by
    rw [hquotient]
    apply fits_natCast
    calc
      l * 2 ^ w / r ≤ l * 2 ^ w := Nat.div_le_self _ _
      _ < 2 ^ (w - 1) * 2 ^ w := Nat.mul_lt_mul_of_pos_right hl (by positivity)
      _ = 2 ^ (2 * w - 1) := by rw [← pow_add]; congr 1; omega
  rw [← hquotient]
  exact div_of_ne_zero hw hchecked hne hfits

theorem convert_natCast {q : ℕ} (hw : 0 < w) (hclose : CloseScales w Q q)
    {s : FixedPoint w q} {n : ℕ} (hs : s.val.toInt = n) (hn : rescale n q Q < 2 ^ (w - 1)) :
    ∃ t : FixedPoint w Q, convert w w Q s = .ok t ∧ t.val.toInt = rescale n q Q := by
  obtain ⟨t, ht, -, hup, hdown⟩ := convert_of_close le_rfl le_rfl s hclose
  refine ⟨t, ht, ?_⟩
  obtain hle | hle := le_total Q q
  · rw [hdown hle, hs, rescale_of_le n hle]
    push_cast
    rfl
  · have hfits : Fits w (n * 2 ^ (Q - q)) := by
      rw [rescale_of_ge n hle] at hn
      exact_mod_cast fits_natCast hn
    rw [hup hle, hs, bmod_of_fits hw hfits, rescale_of_ge n hle]
    push_cast
    rfl

theorem divide_natCast (hw : 32 ≤ w) {a b : FixedPoint w 0} {l r : ℕ} (ha : a.val.toInt = l)
    (hb : b.val.toInt = r) (hr : r ≠ 0) (hclose : CloseScales (2 * w) Q (0 + w - 0))
    (hn : rescale (l * 2 ^ w / r) (0 + w - 0) Q < 2 ^ (2 * w - 1)) :
    ∃ t : FixedPoint (2 * w) Q, div a b >>= convert (2 * w) (2 * w) Q = .ok t ∧
      t.val.toInt = rescale (l * 2 ^ w / r) (0 + w - 0) Q := by
  obtain ⟨s, hs, hval⟩ := div_natCast hw ha hb hr
  rw [hs, Rollback.ok_bind]
  exact convert_natCast (by omega) hclose hval hn

end FixedPoint

theorem toInt_toBitVec_of_lt {x : UInt32} (h : x.toNat < 2 ^ 31) :
    x.toBitVec.toInt = x.toNat :=
  BitVec.toInt_eq_toNat_of_lt (by rw [UInt32.toNat_toBitVec]; omega)

theorem toInt_setWidth_of_lt {x : UInt64} (h : x.toNat < 2 ^ 31) :
    ((x.toBitVec.setWidth 32).signExtend 64).toInt = x.toNat := by
  have hcut : (x.toBitVec.setWidth 32).toNat = x.toNat := by
    rw [BitVec.toNat_setWidth, UInt64.toNat_toBitVec]
    omega
  rw [BitVec.toInt_signExtend_of_le (by decide), BitVec.toInt_eq_toNat_of_lt (by omega), hcut]

theorem fixedDivide32_of_lt (Q : ℕ) {lhs rhs : UInt32} (hrhs : rhs ≠ 0) (hl : lhs.toNat < 2 ^ 31)
    (hr : rhs.toNat < 2 ^ 31) (hQ : lhs ≠ 0 ∨ Q < 96)
    (hn : rescale (lhs.toNat * 2 ^ 32 / rhs.toNat) 32 Q < 2 ^ 63) :
    ∃ t, fixedDivide32 Q lhs rhs = .ok t ∧
      t.val.toInt = rescale (lhs.toNat * 2 ^ 32 / rhs.toNat) 32 Q := by
  have hne : rhs.toNat ≠ 0 := fun hzero => hrhs (UInt32.toNat_inj.mp hzero)
  have hclose : CloseScales 64 Q 32 := by
    refine ⟨?_, by omega⟩
    by_contra hfar
    have hlhs : lhs ≠ 0 := hQ.resolve_right (by omega)
    have hpos : 0 < lhs.toNat := Nat.pos_of_ne_zero fun hzero => hlhs (UInt32.toNat_inj.mp hzero)
    have hquotient : 1 ≤ lhs.toNat * 2 ^ 32 / rhs.toNat :=
      (Nat.one_le_div_iff (by omega)).mpr (by omega)
    have hpow : 2 ^ 64 ≤ 2 ^ (Q - 32) := Nat.pow_le_pow_right (by decide) (by omega)
    rw [rescale_of_ge _ (by omega)] at hn
    have hbig := Nat.mul_le_mul hquotient hpow
    omega
  rw [fixedDivide32, if_neg hrhs]
  exact divide_natCast (by decide) (toInt_toBitVec_of_lt hl) (toInt_toBitVec_of_lt hr) hne hclose hn

theorem fixedDivide64_of_lt {Q : ℕ} (hQ : Q < 128) {lhs rhs : UInt64} (hrhs : rhs ≠ 0)
    (hl : lhs.toNat < 2 ^ 31) (hr : rhs.toNat < 2 ^ 31)
    (hn : rescale (lhs.toNat * 2 ^ 64 / rhs.toNat) 64 Q < 2 ^ 127) :
    ∃ t, fixedDivide64 Q lhs rhs = .ok t ∧
      t.val.toInt = rescale (lhs.toNat * 2 ^ 64 / rhs.toNat) 64 Q := by
  have hne : rhs.toNat ≠ 0 := fun hzero => hrhs (UInt64.toNat_inj.mp hzero)
  have hclose : CloseScales 128 Q 64 := ⟨by omega, by omega⟩
  rw [fixedDivide64, if_neg hrhs]
  exact divide_natCast (by decide) (toInt_setWidth_of_lt hl) (toInt_setWidth_of_lt hr) hne hclose hn

/-- Comparisons are those of the stored integers, and of the numbers where the scales are the
same.  Of integers that are not negative as words of 32 bits, the quotient is the floor with 32
or 64 places, brought to `Q` places. -/
theorem comparisons_and_quotients (Q : ℕ) :
    (∀ (w QR : ℕ) (a : FixedPoint w Q) (b : FixedPoint w QR),
      (a.beq b = true ↔ a.val.toInt = b.val.toInt) ∧
      (a.lt b = true ↔ a.val.toInt < b.val.toInt) ∧
      (a.gt b = true ↔ b.val.toInt < a.val.toInt)) ∧
    (∀ (w : ℕ) (a b : FixedPoint w Q),
      (a.beq b = true ↔ a.value = b.value) ∧ (a.lt b = true ↔ a.value < b.value) ∧
      (a.gt b = true ↔ b.value < a.value)) ∧
    (∀ lhs rhs : UInt32, rhs ≠ 0 → lhs.toNat < 2 ^ 31 → rhs.toNat < 2 ^ 31 →
      (lhs ≠ 0 ∨ Q < 96) → rescale (lhs.toNat * 2 ^ 32 / rhs.toNat) 32 Q < 2 ^ 63 →
      ∃ t, fixedDivide32 Q lhs rhs = .ok t ∧
        t.val.toInt = rescale (lhs.toNat * 2 ^ 32 / rhs.toNat) 32 Q) ∧
    (∀ lhs rhs : UInt64, Q < 128 → rhs ≠ 0 → lhs.toNat < 2 ^ 31 → rhs.toNat < 2 ^ 31 →
      rescale (lhs.toNat * 2 ^ 64 / rhs.toNat) 64 Q < 2 ^ 127 →
      ∃ t, fixedDivide64 Q lhs rhs = .ok t ∧
        t.val.toInt = rescale (lhs.toNat * 2 ^ 64 / rhs.toNat) 64 Q) ∧
    (∀ lhs, fixedDivide32 Q lhs 0 = .error (.assertion "divide by zero")) ∧
    ∀ lhs, fixedDivide64 Q lhs 0 = .error (.assertion "divide by zero") := by
  refine ⟨fun w QR a b => ⟨beq_iff a b, lt_iff a b, gt_iff a b⟩, fun w a b => ?_,
    fun lhs rhs hrhs hl hr hQ hn => fixedDivide32_of_lt Q hrhs hl hr hQ hn,
    fun lhs rhs hQ hrhs hl hr hn => fixedDivide64_of_lt hQ hrhs hl hr hn,
    fun lhs => rfl, fun lhs => rfl⟩
  rw [beq_iff, lt_iff, gt_iff, value, value, scaled_inj, scaled_lt_scaled_iff,
    scaled_lt_scaled_iff]
  exact ⟨Iff.rfl, Iff.rfl, Iff.rfl⟩

/-- One, with one place and with none; a dividend that is negative as a word of 32 bits; and
zero with so many places that the shift has no meaning. -/
theorem comparisons_and_quotients_fail :
    let a : FixedPoint64 1 := ⟨2⟩
    let b : FixedPoint64 0 := ⟨1⟩
    (a.value = b.value ∧ a.beq b = false) ∧
      (rescale (2147483648 * 2 ^ 32 / 1) 32 0 = 2147483648 ∧
        fixedDivide32 0 2147483648 1 = .ok ⟨BitVec.ofInt 64 (-2147483648)⟩) ∧
      (rescale (4294967296 * 2 ^ 64 / 1) 64 0 = 4294967296 ∧
        fixedDivide64 0 4294967296 1 = .ok ⟨0⟩) ∧
      (rescale (0 * 2 ^ 32 / 1) 32 96 = 0 ∧ fixedDivide32 96 0 1 = .error .undefinedShift) := by
  intro a b
  have ha : a.val.toInt = 2 := by decide
  have hb : b.val.toInt = 1 := by decide
  refine ⟨⟨?_, by decide⟩, ⟨by decide, by decide⟩, ⟨by decide, by decide⟩, by decide, by decide⟩
  rw [value, value, ha, hb]
  norm_num [scaled]

end Xidata.Eosiolib
