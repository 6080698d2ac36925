import Xidata.Eosiolib.Asset
import Xidata.Eosiolib.PackRoundTrip
import Xidata.Eosiolib.Symbols
import Xidata.Library.DecimalText

/-!
Assets as action data can bring them in.  Unpacking checks neither the amount nor the symbol,
so the operands of an addition may lie outside the range that its result is checked for; and
the decimal form that an asset prints is made digit by digit from signed remainders.
-/

namespace Xidata.Eosiolib

open Positional DecimalText

namespace Asset

/-- The fields of an asset in action data. -/
def serial : Serial Asset :=
  .struct
    { toFun := fun a => (a.amount, a.symbol, ())
      invFun := fun f => ⟨f.1, f.2.1⟩
      left_inv := fun _ => rfl
      right_inv := fun _ => rfl }
    (.cons (.primitive .int64) (.cons
      (.struct
        { toFun := fun s => (s.value, ())
          invFun := fun f => ⟨f.1⟩
          left_inv := fun _ => rfl
          right_inv := fun _ => rfl }
        (.cons (.primitive .uint64) .nil)) .nil))

/-! ### Addition and subtraction of any amounts -/

/-- The operation aborts, or its amount is the exact one and in range. -/
def IsExact (r : Result Asset) (x : ℤ) : Prop :=
  ∀ c, r = .ok c → c.units = x ∧ c.isAmountWithinRange

/-- A value that is reduced to the signed range and found in range was there before, unless it
lies in the outer quarter of what a sum of two amounts can be. -/
theorem bmod_eq_self_iff {x : ℤ} (hlow : -2 ^ 64 ≤ x) (hhigh : x < 2 ^ 64) :
    (-(2 ^ 62 - 1) ≤ x.bmod (2 ^ 64) ∧ x.bmod (2 ^ 64) ≤ 2 ^ 62 - 1 → x.bmod (2 ^ 64) = x) ↔
      |x| ≤ 3 * 2 ^ 62 := by
  rw [abs_le]
  rcases lt_or_ge x (-2 ^ 63) with hneg | hneg
  · have hwrap : x.bmod (2 ^ 64) = x + 2 ^ 64 := by
      rw [← Int.add_bmod_right]
      exact bmod_eq_self (by omega) (by omega)
    rw [hwrap]
    omega
  · rcases lt_or_ge x (2 ^ 63) with hpos | hpos
    · rw [bmod_eq_self hneg hpos]
      omega
    · have hwrap : x.bmod (2 ^ 64) = x - 2 ^ 64 := by
        rw [← Int.sub_bmod_right]
        exact bmod_eq_self (by omega) (by omega)
      rw [hwrap]
      omega

theorem units_bounds (a : Asset) : -2 ^ 63 ≤ a.units ∧ a.units < 2 ^ 63 :=
  ⟨a.amount.le_toInt, a.amount.toInt_lt⟩

/-- An operation that makes an amount out of the wrapped value of `x`, checks its range, and
succeeds only if `p`. -/
theorem isExact_iff {r : Result Asset} {p : Prop} {amount : Int64} {s : SymbolType} {x : ℤ}
    (hr : ∀ c, r = .ok c ↔ p ∧ c = ⟨amount, s⟩ ∧ c.isAmountWithinRange)
    (hwrap : amount.toInt = x.bmod (2 ^ 64)) (hlow : -2 ^ 64 ≤ x) (hhigh : x < 2 ^ 64) :
    IsExact r x ↔ (p → |x| ≤ 3 * 2 ^ 62) := by
  have hunits : (Asset.mk amount s).units = x.bmod (2 ^ 64) := hwrap
  simp only [IsExact, hr]
  constructor
  · intro h hp
    refine (bmod_eq_self_iff hlow hhigh).mp fun hwithin => ?_
    have hin : (Asset.mk amount s).isAmountWithinRange := by
      rwa [isAmountWithinRange_iff, hunits]
    exact hunits.symm.trans (h _ ⟨hp, rfl, hin⟩).1
  · rintro h c ⟨hp, rfl, hin⟩
    have hwithin := isAmountWithinRange_iff.mp hin
    rw [hunits] at hwithin ⊢
    exact ⟨(bmod_eq_self_iff hlow hhigh).mpr (h hp) hwithin, hin⟩

theorem isExact_add_iff {a b : Asset} :
    IsExact (a.add b) (a.units + b.units) ↔
      (b.symbol = a.symbol → |a.units + b.units| ≤ 3 * 2 ^ 62) := by
  have ha := a.units_bounds
  have hb := b.units_bounds
  exact isExact_iff (fun c => add_eq_ok) (Int64.toInt_add a.amount b.amount) (by omega) (by omega)

theorem isExact_sub_iff {a b : Asset} :
    IsExact (a.sub b) (a.units - b.units) ↔
      (b.symbol = a.symbol → |a.units - b.units| ≤ 3 * 2 ^ 62) := by
  have ha := a.units_bounds
  have hb := b.units_bounds
  exact isExact_iff (fun c => sub_eq_ok) (Int64.toInt_sub a.amount b.amount) (by omega) (by omega)

/-- Action data can bring in any two assets.  If they have one symbol, their addition and their
subtraction abort or are exact if and only if neither the sum nor the difference is more than
`3 * 2 ^ 62` in magnitude: beyond that the result wraps back into the accepted range. -/
theorem unpacked_exact_iff (a b : Asset) :
    (∃ data, serial.unpack data = .ok a) ∧ (∃ data, serial.unpack data = .ok b) ∧
      (IsExact (a.add b) (a.units + b.units) ∧ IsExact (a.sub b) (a.units - b.units) ↔
        (b.symbol = a.symbol →
          |a.units + b.units| ≤ 3 * 2 ^ 62 ∧ |a.units - b.units| ≤ 3 * 2 ^ 62)) := by
  refine ⟨⟨serial.encode a, serial.unpack_encode a⟩, ⟨serial.encode b, serial.unpack_encode b⟩, ?_⟩
  rw [isExact_add_iff, isExact_sub_iff, ← imp_and]

/-- Twice the least amount is zero. -/
theorem add_least_not_exact :
    ∃ a, serial.unpack [0, 0, 0, 0, 0, 0, 0, 0x80, 4, 83, 89, 83, 0, 0, 0, 0] = .ok a ∧
      a.units = -2 ^ 63 ∧ a.add a = .ok ⟨0, coreSymbol⟩ ∧
        ¬ IsExact (a.add a) (a.units + a.units) := by
  have hsum : (Asset.mk Int64.minValue coreSymbol).add ⟨Int64.minValue, coreSymbol⟩ =
      .ok ⟨0, coreSymbol⟩ := by decide
  refine ⟨⟨Int64.minValue, coreSymbol⟩, by decide, by decide, hsum, fun h => ?_⟩
  have hzero := (h _ hsum).1
  revert hzero
  decide

/-! ### The printed form -/

end Asset

/-- `printi`: an integer in decimal. -/
def printi (x : Int64) : List Char :=
  if x < 0 then '-' :: Nat.toDigits 10 x.toInt.natAbs else Nat.toDigits 10 x.toInt.natAbs

/-- The letters that `symbol_type::print` writes, with `passes` passes left. -/
def printLetters : ℕ → UInt64 → List Char
  | 0, _ => []
  | passes + 1, sym =>
      let c := sym &&& 0xff
      if c = 0 then [] else Char.ofUInt8 c.toUInt8 :: printLetters passes (sym >>> 8)

def SymbolType.print (s : SymbolType) (showPrecision : Bool) : List Char :=
  (if showPrecision then Nat.toDigits 10 s.precision.toNat ++ [','] else []) ++
    printLetters 7 (s.value >>> 8)

namespace Asset

/-- `p10`, by the loop that multiplies. -/
def powerOfTen : ℕ → Int64
  | 0 => 1
  | p + 1 => powerOfTen p * 10

/-- The characters of `fraction`, which is filled from its last one on. -/
def fractionChars : ℕ → Int64 → List Char
  | 0, _ => []
  | p + 1, change =>
      fractionChars p (change / 10) ++ [Char.ofUInt8 (change % 10 + 48).toInt8.toUInt8]

/-- `asset::print`.  A power of ten that has wrapped to zero makes the division trap. -/
def print (a : Asset) : Option (List Char) :=
  let p := a.symbol.precision.toNat
  let p10 := powerOfTen p
  if p10 = 0 then none
  else
    let fraction := fractionChars p (a.amount % p10)
    some (printi (a.amount / p10) ++ ['.'] ++ fraction ++ [' '] ++ a.symbol.print false)

/-- A decimal number with as many digits after the point as the precision says, of the value
of the asset, and after a space the letters of its symbol. -/
def PrintsExactly (a : Asset) : Prop :=
  ∃ (d : Decimal) (w : List Char), a.print = some (d.text ++ ' ' :: w) ∧
    d.fraction.length = a.symbol.precision.toNat ∧
    d.value = a.units / 10 ^ a.symbol.precision.toNat ∧ Spells a.symbol.value w

theorem printLetters_eq {passes : ℕ} {sym : UInt64} {w : List Char} (hupper : ∀ c ∈ w, IsUpper c)
    (hcode : sym.toNat = wordCode w) (h : w.length ≤ passes) : printLetters passes sym = w := by
  induction passes generalizing sym w with
  | zero => exact (List.length_eq_zero_iff.mp (Nat.le_zero.mp h)).symm
  | succ passes ih =>
      have hstop := low_eight_eq_zero_iff sym
      rw [printLetters]
      cases w with
      | nil =>
          rw [(wordCode_eq_zero_iff (by simp)).mpr rfl] at hcode
          rw [if_pos (hstop.mpr (by omega))]
      | cons c w =>
          have hc := hupper c List.mem_cons_self
          have hbound := isUpper_toNat hc
          rw [wordCode_cons hc] at hcode
          have hrest : (sym >>> 8).toNat = wordCode w := by
            rw [toNat_shiftRight_eight]
            omega
          have hletter : Char.ofUInt8 (sym &&& 0xff).toUInt8 = c := by
            apply Char.toNat_inj.mp
            have hbyte : (Char.ofUInt8 (sym &&& 0xff).toUInt8).toNat =
                (sym &&& 0xff).toUInt8.toNat := rfl
            rw [hbyte, UInt64.toNat_toUInt8, toNat_low_eight]
            omega
          rw [if_neg (fun hzero => by have := hstop.mp hzero; omega), hletter,
            ih (List.forall_mem_cons.mp hupper).2 hrest (Nat.le_of_succ_le_succ h)]

theorem print_symbol {s : SymbolType} {w : List Char} (h : Spells s.value w) :
    s.print false = w :=
  printLetters_eq h.word.upper (spells_iff.mp h).2 h.word.length_le

theorem toInt_powerOfTen {p : ℕ} (hp : p ≤ 18) : (powerOfTen p).toInt = 10 ^ p := by
  induction p with
  | zero => rfl
  | succ p ih =>
      have hpow : (10 : ℤ) ^ (p + 1) ≤ 10 ^ 18 := pow_le_pow_right₀ (by decide) hp
      have hpos : (0 : ℤ) < 10 ^ (p + 1) := by positivity
      have hten : (10 : Int64).toInt = 10 := rfl
      have hprev := ih (by omega)
      rw [pow_succ] at hpow hpos ⊢
      rw [powerOfTen, toInt_mul_of_bounds, hprev, hten] <;> rw [hprev, hten] <;> omega

/-- What is put for a last digit of `change`, which has the sign of `change`. -/
def fractionChar (digit : ℤ) : Char := Char.ofUInt8 (Int64.ofInt digit + 48).toInt8.toUInt8

theorem toInt_div_ten (x : Int64) : (x / 10).toInt = x.toInt.tdiv 10 :=
  Int64.toInt_div_of_ne_right x 10 (by decide)

theorem fractionChars_succ (p : ℕ) (change : Int64) :
    fractionChars (p + 1) change =
      fractionChars p (change / 10) ++ [fractionChar (change.toInt.tmod 10)] := by
  have hten : (10 : Int64).toInt = 10 := rfl
  rw [fractionChars, fractionChar, ← hten, ← Int64.toInt_mod, Int64.ofInt_toInt]

theorem fractionChar_digit : ∀ d < 10, fractionChar (d : ℕ) = Nat.digitChar d := by
  decide

theorem fractionChar_neg_digit : ∀ d < 10, 0 < d → (fractionChar (-(d : ℕ))).isDigit = false := by
  decide

/-- The digits of a fraction that is not negative. -/
theorem fractionChars_of_nonneg {p : ℕ} {change : Int64} {n : ℕ} (h : change.toInt = n) :
    fractionChars p change = digitChars p n := by
  induction p generalizing change n with
  | zero => rfl
  | succ p ih =>
      have hrest : (change / 10).toInt = (n / 10 : ℕ) := by
        rw [toInt_div_ten, h, Int.tdiv_eq_ediv_of_nonneg (Int.natCast_nonneg n)]
        rfl
      have hlast : change.toInt.tmod 10 = (n % 10 : ℕ) := by
        rw [h, Int.tmod_eq_emod_of_nonneg (Int.natCast_nonneg n)]
        rfl
      rw [fractionChars_succ, ih hrest, hlast, fractionChar_digit _ (Nat.mod_lt n (by decide)),
        digitChars, digitChars, digits, List.map_append, List.map_singleton]

theorem length_fractionChars (p : ℕ) (change : Int64) : (fractionChars p change).length = p := by
  induction p generalizing change with
  | zero => rfl
  | succ p ih => rw [fractionChars_succ, List.length_append, ih, List.length_singleton]

/-- A negative fraction has a digit that is not zero, and this one is not printed as a digit. -/
theorem exists_not_isDigit {p : ℕ} {change : Int64} {n : ℕ} (h : change.toInt = -n) (hpos : 0 < n)
    (hlt : n < 10 ^ p) : ∃ c ∈ fractionChars p change, c.isDigit = false := by
  induction p generalizing change n with
  | zero =>
      rw [pow_zero] at hlt
      omega
  | succ p ih =>
      have hrest : (change / 10).toInt = -(n / 10 : ℕ) := by
        rw [toInt_div_ten, h, Int.neg_tdiv, Int.tdiv_eq_ediv_of_nonneg (Int.natCast_nonneg n)]
        rfl
      have hlast : change.toInt.tmod 10 = -(n % 10 : ℕ) := by
        rw [h, Int.neg_tmod, Int.tmod_eq_emod_of_nonneg (Int.natCast_nonneg n)]
        rfl
      rw [fractionChars_succ, hlast]
      rcases Nat.eq_zero_or_pos (n % 10) with hzero | hdigit
      · have hsmall : n / 10 < 10 ^ p := by
          rw [pow_succ] at hlt
          omega
        obtain ⟨c, hc, hnot⟩ := ih hrest (by omega) hsmall
        exact ⟨c, List.mem_append_left _ hc, hnot⟩
      · exact ⟨_, List.mem_append_right _ List.mem_cons_self,
          fractionChar_neg_digit _ (Nat.mod_lt n (by decide)) hdigit⟩

theorem printi_of_nonneg {x : Int64} {n : ℕ} (h : x.toInt = n) : printi x = Nat.toDigits 10 n := by
  have hx : ¬ x < 0 := by
    rw [Int64.lt_iff_toInt_lt, h]
    exact not_lt.mpr (Int.natCast_nonneg n)
  rw [printi, if_neg hx, h, Int.natAbs_natCast]

theorem printi_of_neg {x : Int64} {n : ℕ} (h : x.toInt = -n) (hpos : 0 < n) :
    printi x = '-' :: Nat.toDigits 10 n := by
  have hx : x < 0 := by
    rw [Int64.lt_iff_toInt_lt, h]
    exact Int.neg_neg_of_pos (by exact_mod_cast hpos)
  rw [printi, if_pos hx, h, Int.natAbs_neg, Int.natAbs_natCast]

section Printed

variable {a : Asset} {w : List Char} {p : ℕ}

theorem ten_pow_pos (p : ℕ) : 0 < 10 ^ p := Nat.pow_pos (by decide)

/-- The parts of the printed form, by the integer quotient and remainder. -/
theorem exists_print (hp : a.symbol.precision.toNat = p) (hle : p ≤ 18)
    (hw : Spells a.symbol.value w) :
    ∃ whole change : Int64, whole.toInt = a.units.tdiv (10 ^ p) ∧
      change.toInt = a.units.tmod (10 ^ p) ∧
      a.print = some (printi whole ++ ['.'] ++ fractionChars p change ++ [' '] ++ w) := by
  have hten := toInt_powerOfTen hle
  have hpos : (0 : ℤ) < 10 ^ p := by positivity
  have hne : powerOfTen p ≠ 0 := by
    intro hzero
    rw [hzero] at hten
    exact hpos.ne hten
  have hne' : powerOfTen p ≠ -1 := by
    intro hone
    rw [hone] at hten
    exact absurd hpos (hten ▸ by decide)
  refine ⟨a.amount / powerOfTen p, a.amount % powerOfTen p, ?_, ?_, ?_⟩
  · rw [Int64.toInt_div_of_ne_right _ _ hne', hten, units]
  · rw [Int64.toInt_mod, hten, units]
  · rw [print, hp, if_neg hne, print_symbol hw]

theorem printsExactly_of_nonneg (hp : a.symbol.precision.toNat = p) (hle : p ≤ 18)
    (hw : Spells a.symbol.value w) (h : 0 ≤ a.units) : a.PrintsExactly := by
  obtain ⟨n, hn⟩ := Int.eq_ofNat_of_zero_le h
  have hlt : n % 10 ^ p < 10 ^ p := Nat.mod_lt n (ten_pow_pos p)
  obtain ⟨whole, change, hwhole, hchange, hprint⟩ := exists_print hp hle hw
  rw [hn, Int.tdiv_eq_ediv_of_nonneg (Int.natCast_nonneg n)] at hwhole
  rw [hn, Int.tmod_eq_emod_of_nonneg (Int.natCast_nonneg n)] at hchange
  refine ⟨Decimal.ofParts false (n / 10 ^ p) p (n % 10 ^ p), w, ?_, ?_, ?_, hw⟩
  · rw [hprint, printi_of_nonneg (n := n / 10 ^ p) (by simpa using hwhole),
      fractionChars_of_nonneg (n := n % 10 ^ p) (by simpa using hchange)]
    simp [Decimal.text, Decimal.sign, Decimal.ofParts]
  · rw [hp]
    exact length_digitChars p _
  · rw [Decimal.value_ofParts hlt, Nat.div_add_mod', hp, hn]
    simp

theorem printsExactly_of_dvd (hp : a.symbol.precision.toNat = p) (hle : p ≤ 18)
    (hw : Spells a.symbol.value w) (hneg : a.units < 0) (h : (10 : ℤ) ^ p ∣ a.units) :
    a.PrintsExactly := by
  have hpos : (0 : ℤ) < 10 ^ p := by positivity
  obtain ⟨m, hm⟩ := h
  have hmneg : m < 0 := by
    by_contra hge
    have hmul := mul_nonneg hpos.le (not_lt.mp hge)
    omega
  obtain ⟨k, hk⟩ := Int.eq_ofNat_of_zero_le (by omega : 0 ≤ -m)
  have hm' : m = -(k : ℤ) := by omega
  obtain ⟨whole, change, hwhole, hchange, hprint⟩ := exists_print hp hle hw
  rw [hm, hm', Int.mul_tdiv_cancel_left _ hpos.ne'] at hwhole
  rw [hm, Int.mul_tmod_right] at hchange
  refine ⟨Decimal.ofParts true k p 0, w, ?_, ?_, ?_, hw⟩
  · rw [hprint, printi_of_neg hwhole (by omega), fractionChars_of_nonneg (n := 0) hchange]
    simp [Decimal.text, Decimal.sign, Decimal.ofParts]
  · rw [hp]
    exact length_digitChars p _
  · rw [Decimal.value_ofParts (ten_pow_pos p), hp, hm, hm']
    push_cast
    simp
    ring

/-- A negative amount with a fraction that is not zero has something else than digits there. -/
theorem not_printsExactly (hp : a.symbol.precision.toNat = p) (hle : p ≤ 18)
    (hw : Spells a.symbol.value w) (hneg : a.units < 0) (h : ¬ (10 : ℤ) ^ p ∣ a.units) :
    ¬ a.PrintsExactly := by
  rintro ⟨d, w', hd, hlength, -, hw'⟩
  obtain rfl := hw'.eq hw
  obtain ⟨whole, change, -, hchange, hprint⟩ := exists_print hp hle hw
  have hremainder : change.toInt = -((-a.units).tmod (10 ^ p)).toNat := by
    have hnonneg : 0 ≤ (-a.units).tmod (10 ^ p) := Int.tmod_nonneg _ (by omega)
    rw [Int.toNat_of_nonneg hnonneg, Int.neg_tmod, hchange, neg_neg]
  have hpos : 0 < ((-a.units).tmod (10 ^ p)).toNat := by
    have hnonneg : 0 ≤ (-a.units).tmod (10 ^ p) := Int.tmod_nonneg _ (by omega)
    have hne : (-a.units).tmod (10 ^ p) ≠ 0 := fun hzero =>
      h (Int.dvd_neg.mp (Int.dvd_of_tmod_eq_zero hzero))
    omega
  have hlt : ((-a.units).tmod (10 ^ p)).toNat < 10 ^ p := by
    have hten : (0 : ℤ) < 10 ^ p := by positivity
    have hltInt : (-a.units).tmod (10 ^ p) < 10 ^ p := Int.tmod_lt_of_pos _ hten
    zify
    rw [Int.toNat_of_nonneg (Int.tmod_nonneg _ (by omega))]
    exact hltInt
  obtain ⟨c, hc, hnot⟩ := exists_not_isDigit hremainder hpos hlt
  -- both texts end in the fraction, the space and the letters, of the same lengths
  have htext : (d.sign ++ d.whole ++ ['.']) ++ (d.fraction ++ ' ' :: w') =
      (printi whole ++ ['.']) ++ (fractionChars p change ++ ' ' :: w') := by
    have heq := Option.some.inj (hd.symm.trans hprint)
    simpa [Decimal.text] using heq
  have hsame : d.fraction.length = (fractionChars p change).length := by
    rw [hlength, hp, length_fractionChars]
  obtain ⟨-, htail⟩ := List.append_inj' htext (by simp [hsame])
  have hfraction := (List.append_inj htail hsame).1
  have hdigit := d.isDigit c (List.mem_append_right _ (hfraction ▸ hc))
  rw [hnot] at hdigit
  cases hdigit

end Printed

/-- A valid asset with up to 18 decimal places is printed exactly if and only if its amount is
not negative or has no fraction. -/
theorem printsExactly_iff {a : Asset} (ha : a.isValid) (hp : a.symbol.precision ≤ 18) :
    a.PrintsExactly ↔ 0 ≤ a.units ∨ (10 : ℤ) ^ a.symbol.precision.toNat ∣ a.units := by
  obtain ⟨w, hw⟩ := isValidSymbol_iff.mp ha.2
  have hle : a.symbol.precision.toNat ≤ 18 := UInt64.le_iff_toNat_le.mp hp
  rcases lt_or_ge a.units 0 with hneg | hnonneg
  · rw [or_iff_right (not_le.mpr hneg)]
    constructor
    · intro h
      by_contra hdvd
      exact not_printsExactly rfl hle hw hneg hdvd h
    · exact printsExactly_of_dvd rfl hle hw hneg
  · exact iff_of_true (printsExactly_of_nonneg rfl hle hw hnonneg) (.inl hnonneg)

theorem printsExactly_minus_two : (Asset.mk (-20000) coreSymbol).PrintsExactly :=
  (printsExactly_iff (by decide) (by decide)).mpr (.inr (by decide))

/-- The least negative amount loses its sign, and its last digit is no digit. -/
theorem print_negative_not_exact :
    (Asset.mk (-1) coreSymbol).isValid ∧
      (Asset.mk (-1) coreSymbol).print = some "0.000/ SYS".toList ∧
      ¬ (Asset.mk (-1) coreSymbol).PrintsExactly := by
  have hupper : ∀ c ∈ ['S', 'Y', 'S'], 65 ≤ c.toNat ∧ c.toNat ≤ 90 := by simp
  have hw : Spells (Asset.mk (-1) coreSymbol).symbol.value ['S', 'Y', 'S'] :=
    spells_stringToSymbol 4 ⟨by decide, by decide, hupper⟩
  exact ⟨by decide, by decide, not_printsExactly rfl (by decide) hw (by decide) (by decide)⟩

end Asset

end Xidata.Eosiolib
