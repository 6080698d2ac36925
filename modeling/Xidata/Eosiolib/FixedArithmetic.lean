import Xidata.Eosiolib.FixedPoint

/-!
The arithmetic of the fixed point numbers: where the operators and the conversions to a wider
word give the number that they stand for.
-/

namespace Xidata.Eosiolib

open BinaryPlaces SignedWord

namespace FixedPoint

variable {w Q QR : ℕ} {a : FixedPoint w Q} {b : FixedPoint w QR}

/-- What is stored for the number at `M` places, where these are not fewer. -/
def storedAt (a : FixedPoint w Q) (M : ℕ) : ℤ := a.val.toInt * 2 ^ (M - Q)

/-- An operation that answers as it should under a condition, and fails without it. -/
theorem exists_ok_iff {α : Type} {outcome : Outcome α} {P : α → Prop} {condition : Prop}
    {fault : Fault} (hfails : ¬ condition → outcome = .error fault)
    (hok : condition → ∃ s, outcome = .ok s ∧ P s) :
    (∃ s, outcome = .ok s ∧ P s) ↔ condition := by
  refine ⟨?_, hok⟩
  rintro ⟨s, hs, -⟩
  by_contra hcondition
  rw [hfails hcondition] at hs
  cases hs

theorem scaled_storedAt {M : ℕ} (h : Q ≤ M) : scaled (a.storedAt M) M = a.value :=
  scaled_shift a.val.toInt h

/-! ### Sums and differences -/

theorem convert_storedAt {M : ℕ} (hw : 0 < w) (hle : Q ≤ M) (hclose : M - Q < w)
    (h : Fits w (a.storedAt M)) :
    ∃ s : FixedPoint w M, convert w w M a = .ok s ∧ s.val.toInt = a.storedAt M := by
  have hscales : CloseScales w M Q := ⟨hclose, by omega⟩
  obtain ⟨s, hconvert, -, hup, -⟩ := convert_of_close le_rfl le_rfl a hscales
  exact ⟨s, hconvert, (hup hle).trans (bmod_of_fits hw h)⟩

theorem combine_of_not_close {op : BitVec w → BitVec w → BitVec w} (hw : 0 < w)
    (hclose : ¬ CloseScales w Q QR) : combine op a b = .error .undefinedShift := by
  have hne : Q ≠ QR := by
    rintro rfl
    exact hclose ⟨by omega, by omega⟩
  rw [combine, if_neg hne]
  by_cases hleft : CloseScales w (max Q QR) Q
  · have hright : ¬ CloseScales w (max Q QR) QR := by
      unfold CloseScales at hclose hleft ⊢
      omega
    obtain ⟨l, hl, -⟩ := convert_of_close le_rfl le_rfl a hleft
    rw [hl, Rollback.ok_bind, convert_of_not_close b hright]
    rfl
  · rw [convert_of_not_close a hleft]
    rfl

theorem combine_of_close {op : BitVec w → BitVec w → BitVec w} {f : ℤ → ℤ → ℤ} (hw : 0 < w)
    (hop : ∀ x y, (op x y).toInt = (f x.toInt y.toInt).bmod (2 ^ w))
    (ha : Fits w (a.storedAt (max Q QR))) (hb : Fits w (b.storedAt (max Q QR)))
    (hf : Fits w (f (a.storedAt (max Q QR)) (b.storedAt (max Q QR))))
    (hclose : CloseScales w Q QR) :
    ∃ s, combine op a b = .ok s ∧
      s.val.toInt = f (a.storedAt (max Q QR)) (b.storedAt (max Q QR)) := by
  obtain ⟨hdown, hup⟩ := hclose
  by_cases hsame : Q = QR
  · subst hsame
    have hval : (op a.val b.val).toInt = f (a.storedAt (max Q Q)) (b.storedAt (max Q Q)) := by
      rw [hop, ← bmod_of_fits hw hf]
      simp [storedAt]
    exact ⟨⟨op a.val b.val⟩, if_pos rfl, hval⟩
  · obtain ⟨l, hl, hlval⟩ := convert_storedAt hw (le_max_left Q QR) (by omega) ha
    obtain ⟨r, hr, hrval⟩ := convert_storedAt hw (le_max_right Q QR) (by omega) hb
    have hval : (op l.val r.val).toInt = f (a.storedAt (max Q QR)) (b.storedAt (max Q QR)) := by
      rw [hop, hlval, hrval, bmod_of_fits hw hf]
    refine ⟨⟨op l.val r.val⟩, ?_, hval⟩
    rw [combine, if_neg hsame, hl, hr]
    rfl

theorem exists_value_iff {M : ℕ} {outcome : Outcome (FixedPoint w M)} {n : ℤ} {x : ℚ}
    (hx : scaled n M = x) :
    (∃ s, outcome = .ok s ∧ s.value = x) ↔ ∃ s, outcome = .ok s ∧ s.val.toInt = n := by
  simp only [value, ← hx, scaled_inj]

theorem value_combine_iff {op : BitVec w → BitVec w → BitVec w} {f : ℤ → ℤ → ℤ} {g : ℚ → ℚ → ℚ}
    (hw : 0 < w) (hop : ∀ x y, (op x y).toInt = (f x.toInt y.toInt).bmod (2 ^ w))
    (hg : ∀ m n M, scaled (f m n) M = g (scaled m M) (scaled n M))
    (ha : Fits w (a.storedAt (max Q QR))) (hb : Fits w (b.storedAt (max Q QR)))
    (hf : Fits w (f (a.storedAt (max Q QR)) (b.storedAt (max Q QR)))) :
    (∃ s, combine op a b = .ok s ∧ s.value = g a.value b.value) ↔ CloseScales w Q QR := by
  have hvalue : scaled (f (a.storedAt (max Q QR)) (b.storedAt (max Q QR))) (max Q QR) =
      g a.value b.value := by
    rw [hg, scaled_storedAt (le_max_left Q QR), scaled_storedAt (le_max_right Q QR)]
  rw [exists_value_iff hvalue]
  exact exists_ok_iff (combine_of_not_close hw) (combine_of_close hw hop ha hb hf)

/-! ### Products and quotients -/

theorem value_mul (hw : 0 < w) (a : FixedPoint w Q) (b : FixedPoint w QR) :
    (mul a b).value = a.value * b.value := by
  have hle : w ≤ 2 * w := by omega
  have hval : (mul a b).val.toInt = a.val.toInt * b.val.toInt := by
    rw [mul, BitVec.toInt_mul, BitVec.toInt_signExtend_of_le hle,
      BitVec.toInt_signExtend_of_le hle]
    exact bmod_of_fits (by omega) ((fits_toInt a.val).mul (fits_toInt b.val) hw)
  rw [value, hval, scaled_mul]
  rfl

/-- The check for zero can tell: the integer part is defined, and the fractional part where the
integer part is zero. -/
def ZeroChecked (b : FixedPoint w QR) : Prop :=
  QR < w ∧ (QR ≤ 32 ∨ b.val.toInt < 0 ∨ 2 ^ QR ≤ b.val.toInt)

instance (b : FixedPoint w QR) : Decidable b.ZeroChecked := inferInstanceAs (Decidable (_ ∧ _))

theorem intPart_of_lt (h : QR < w) :
    ∃ intPart, b.intPart = .ok intPart ∧
      (intPart = 0 ↔ 0 ≤ b.val.toInt ∧ b.val.toInt < 2 ^ QR) := by
  have hzero : (0 : BitVec w).toInt = 0 := BitVec.toInt_zero
  refine ⟨b.val.sshiftRight QR, shr_of_lt b.val h, ?_⟩
  rw [← BitVec.toInt_inj, toInt_sshiftRight, hzero, Int.ediv_eq_iff_of_pos (by positivity)]
  simp

/-- Nothing of a fraction is shifted out. -/
theorem fracPart_of_le (hw : 32 ≤ w) (h : QR ≤ 32) (hlow : 0 ≤ b.val.toInt)
    (hhigh : b.val.toInt < 2 ^ QR) :
    ∃ fracPart, b.fracPart = .ok fracPart ∧ (fracPart = 0 ↔ b.val = 0) := by
  obtain rfl | hpos := Nat.eq_zero_or_pos QR
  · have hval : b.val.toInt = 0 := by
      rw [pow_zero] at hhigh
      omega
    have hzero : b.val = 0 := BitVec.toInt_inj.mp (hval.trans BitVec.toInt_zero.symm)
    exact ⟨0, if_pos rfl, by simp [hzero]⟩
  · have hcount : ((32 - QR : ℕ) : ℤ) = 32 - QR := by omega
    refine ⟨b.val <<< (32 - QR), ?_, ?_⟩
    · rw [fracPart, if_neg hpos.ne', ← hcount, shl_of_lt b.val (by omega)]
    · have hnat : b.val.toNat < 2 ^ QR := by
        have hmsb : b.val.msb = false := by
          rw [BitVec.msb_eq_toInt]
          exact decide_eq_false hlow.not_gt
        rw [BitVec.toInt_eq_toNat_of_msb hmsb] at hhigh
        exact_mod_cast hhigh
      have hroom : b.val.toNat * 2 ^ (32 - QR) < 2 ^ w :=
        calc
          b.val.toNat * 2 ^ (32 - QR) < 2 ^ QR * 2 ^ (32 - QR) :=
            Nat.mul_lt_mul_of_pos_right hnat (by positivity)
          _ = 2 ^ 32 := by rw [← pow_add, Nat.add_sub_cancel' h]
          _ ≤ 2 ^ w := Nat.pow_le_pow_right (by decide) hw
      have hshift : (b.val <<< (32 - QR)).toNat = b.val.toNat * 2 ^ (32 - QR) := by
        rw [BitVec.toNat_shiftLeft, Nat.shiftLeft_eq, Nat.mod_eq_of_lt hroom]
      have hzero : (0 : BitVec w).toNat = 0 := BitVec.toNat_zero
      rw [← BitVec.toNat_inj, ← BitVec.toNat_inj, hshift, hzero]
      simp

theorem fracPart_of_lt (h : 32 < QR) : b.fracPart = .error .undefinedShift := by
  rw [fracPart, if_neg (by omega), shl, if_neg (by omega)]

theorem isZero_of_checked (hw : 32 ≤ w) (h : b.ZeroChecked) :
    b.isZero = .ok (decide (b.val = 0)) := by
  obtain ⟨hlt, hpart⟩ := h
  obtain ⟨intPart, hintPart, hiff⟩ := intPart_of_lt hlt
  have hpow : (0 : ℤ) < 2 ^ QR := by positivity
  rw [isZero, hintPart, Rollback.ok_bind]
  by_cases hzero : intPart = 0
  · obtain ⟨hlow, hhigh⟩ := hiff.mp hzero
    obtain ⟨fracPart, hfracPart, hfrac⟩ := fracPart_of_le hw (by omega) hlow hhigh
    rw [if_pos hzero, hfracPart, Rollback.ok_bind, decide_eq_decide.mpr hfrac]
    rfl
  · have hne : b.val ≠ 0 := fun hval => hzero (hiff.mpr (by simp [hval]))
    rw [if_neg hzero, decide_eq_false hne]
    rfl

theorem isZero_of_not_checked (h : ¬ b.ZeroChecked) : b.isZero = .error .undefinedShift := by
  unfold ZeroChecked at h
  rw [isZero]
  by_cases hlt : QR < w
  · obtain ⟨intPart, hintPart, hiff⟩ := intPart_of_lt (b := b) hlt
    have hzero : intPart = 0 := hiff.mpr ⟨by omega, by omega⟩
    have hscale : 32 < QR := by omega
    rw [hintPart, Rollback.ok_bind, if_pos hzero, fracPart_of_lt hscale]
    rfl
  · rw [intPart, shr_of_le b.val (not_lt.mp hlt)]
    rfl

theorem div_of_zero (hw : 32 ≤ w) (h : b.ZeroChecked) (hb : b.val = 0) :
    div a b = .error (.assertion "divide by zero") := by
  rw [div, isZero_of_checked hw h, decide_eq_true hb]
  rfl

theorem div_of_not_checked (h : ¬ b.ZeroChecked) : div a b = .error .undefinedShift := by
  rw [div, isZero_of_not_checked h]
  rfl

theorem div_of_ne_zero (hw : 32 ≤ w) (h : b.ZeroChecked) (hb : b.val ≠ 0)
    (hfits : Fits (2 * w) ((a.val.toInt * 2 ^ w).tdiv b.val.toInt)) :
    ∃ s, div a b = .ok s ∧ s.val.toInt = (a.val.toInt * 2 ^ w).tdiv b.val.toInt := by
  have hle : w ≤ 2 * w := by omega
  have hshift : Fits (2 * w) (a.val.toInt * 2 ^ w) := by
    rw [two_mul]
    exact (fits_toInt a.val).shift (by omega) w
  have hval : ((a.val.signExtend (2 * w) <<< w).sdiv (b.val.signExtend (2 * w))).toInt =
      (a.val.toInt * 2 ^ w).tdiv b.val.toInt := by
    rw [BitVec.toInt_sdiv, toInt_shiftLeft, BitVec.toInt_signExtend_of_le hle,
      BitVec.toInt_signExtend_of_le hle, bmod_of_fits (by omega) hshift,
      bmod_of_fits (by omega) hfits]
  refine ⟨⟨_⟩, ?_, hval⟩
  rw [div, isZero_of_checked hw h, decide_eq_false hb]
  rfl

theorem value_quotient_iff (hw : 32 ≤ w) (hscale : QR ≤ Q + w) (hb : b.val ≠ 0)
    (hfits : Fits (2 * w) (truncate (a.value / b.value * 2 ^ (Q + w - QR)))) :
    (∃ s, div a b = .ok s ∧
      s.value = scaled (truncate (a.value / b.value * 2 ^ (Q + w - QR))) (Q + w - QR)) ↔
      b.ZeroChecked := by
  have hquotient : truncate (a.value / b.value * 2 ^ (Q + w - QR)) =
      (a.val.toInt * 2 ^ w).tdiv b.val.toInt := truncate_scaled_div hscale
  rw [hquotient] at hfits ⊢
  rw [exists_value_iff rfl]
  exact exists_ok_iff div_of_not_checked fun hchecked => div_of_ne_zero hw hchecked hb hfits

theorem div_zero_iff (hw : 32 ≤ w) (hb : b.val = 0) :
    div a b = .error (.assertion "divide by zero") ↔ b.ZeroChecked := by
  constructor
  · intro h
    by_contra hunchecked
    rw [div_of_not_checked hunchecked] at h
    cases h
  · exact fun hchecked => div_of_zero hw hchecked hb

/-! ### The classes -/

/-- Where the operands at the scale of the result and the result fit their words, an operator
gives the exact number, the quotient towards zero, under the condition on the right. -/
structure ExactWhen (a : FixedPoint w Q) (b : FixedPoint w QR)
    (added subtracted : Outcome (FixedPoint w (max Q QR)))
    (multiplied : FixedPoint (2 * w) (Q + QR))
    (divided : Outcome (FixedPoint (2 * w) (Q + w - QR))) : Prop where
  sum : Fits w (a.storedAt (max Q QR)) → Fits w (b.storedAt (max Q QR)) →
    Fits w (a.storedAt (max Q QR) + b.storedAt (max Q QR)) →
    ((∃ s, added = .ok s ∧ s.value = a.value + b.value) ↔ CloseScales w Q QR)
  difference : Fits w (a.storedAt (max Q QR)) → Fits w (b.storedAt (max Q QR)) →
    Fits w (a.storedAt (max Q QR) - b.storedAt (max Q QR)) →
    ((∃ s, subtracted = .ok s ∧ s.value = a.value - b.value) ↔ CloseScales w Q QR)
  product : multiplied.value = a.value * b.value
  quotient : b.val ≠ 0 → QR ≤ Q + w →
    Fits (2 * w) (truncate (a.value / b.value * 2 ^ (Q + w - QR))) →
    ((∃ s, divided = .ok s ∧
      s.value = scaled (truncate (a.value / b.value * 2 ^ (Q + w - QR))) (Q + w - QR)) ↔
      b.ZeroChecked)
  divisionByZero : b.val = 0 →
    (divided = .error (.assertion "divide by zero") ↔ b.ZeroChecked)

theorem exactWhen (hw : 32 ≤ w) (a : FixedPoint w Q) (b : FixedPoint w QR) :
    ExactWhen a b (combine (· + ·) a b) (combine (· - ·) a b) (mul a b) (div a b) where
  sum := value_combine_iff (by omega) BitVec.toInt_add scaled_add
  difference := value_combine_iff (by omega) (fun _ _ => BitVec.toInt_sub) scaled_sub
  product := value_mul (by omega) a b
  quotient hb hscale := value_quotient_iff hw hscale hb
  divisionByZero := div_zero_iff hw

theorem convert128_exact (hw : w ≤ 128) (hQ : Q < 128) (hQR : QR < 128) (r : FixedPoint w QR)
    {n : ℤ} (hn : Fits 128 n) (hvalue : scaled n Q = r.value) :
    ∃ s : FixedPoint128 Q, convert 128 128 Q r = .ok s ∧ s.value = r.value := by
  have hclose : CloseScales 128 Q QR := ⟨by omega, by omega⟩
  exact (convert_exact_iff (by decide) hw le_rfl r hvalue).mpr ⟨hclose, hn⟩

end FixedPoint

open FixedPoint

/-- The arithmetic is exact, for sums and differences if the scales are close for the width,
for quotients if the divisor is told from zero.  What fits a wider word is kept by the
conversion to 128 bits, and by the one from 32 to 64 bits if it fits 32 bits. -/
theorem fixedPoint_exact_iff (Q QR : ℕ) :
    (∀ (a : FixedPoint64 Q) (b : FixedPoint64 QR),
      ExactWhen a b (FixedPoint64.add a b) (FixedPoint64.sub a b) (FixedPoint64.mul a b)
        (FixedPoint64.div a b)) ∧
    (∀ (a : FixedPoint32 Q) (b : FixedPoint32 QR),
      ExactWhen a b (FixedPoint32.add a b) (FixedPoint32.sub a b) (FixedPoint32.mul a b)
        (FixedPoint32.div a b)) ∧
    (∀ (r : FixedPoint64 QR) (n : ℤ), Q < 128 → QR < 128 → Fits 128 n → scaled n Q = r.value →
      ∃ s, FixedPoint128.ofFixedPoint64 Q r = .ok s ∧ s.value = r.value) ∧
    (∀ (r : FixedPoint32 QR) (n : ℤ), Q < 128 → QR < 128 → Fits 128 n → scaled n Q = r.value →
      ∃ s, FixedPoint128.ofFixedPoint32 Q r = .ok s ∧ s.value = r.value) ∧
    ∀ (r : FixedPoint32 QR) (n : ℤ), Fits 64 n → scaled n Q = r.value →
      ((∃ s, FixedPoint64.ofFixedPoint32 Q r = .ok s ∧ s.value = r.value) ↔
        CloseScales 32 Q QR ∧ Fits 32 n) :=
  ⟨exactWhen (by decide), exactWhen (by decide),
    fun r _ hQ hQR hn hvalue => convert128_exact (by decide) hQ hQR r hn hvalue,
    fun r _ hQ hQR hn hvalue => convert128_exact (by decide) hQ hQR r hn hvalue,
    fun r _ _ hvalue => convert_exact_iff (by decide) le_rfl (by decide) r hvalue⟩

/-- Two places more for `2 ^ 30`: the number fits 64 bits, and comes out as zero. -/
theorem fixedPoint64_ofFixedPoint32_loses :
    let r : FixedPoint32 0 := ⟨1073741824⟩
    Fits 64 4294967296 ∧ scaled 4294967296 2 = r.value ∧
      ¬ ∃ s, FixedPoint64.ofFixedPoint32 2 r = .ok s ∧ s.value = r.value := by
  intro r
  have hval : r.val.toInt = 1073741824 := by decide
  have hvalue : scaled 4294967296 2 = r.value := by
    rw [value, hval]
    norm_num [scaled]
  refine ⟨by decide, hvalue, ?_⟩
  rintro ⟨s, hs, heq⟩
  have hzero : FixedPoint64.ofFixedPoint32 2 r = .ok ⟨0⟩ := by decide
  rw [hzero, Except.ok.injEq] at hs
  rw [← hvalue, ← hs, value, scaled_inj] at heq
  revert heq
  decide

end Xidata.Eosiolib
