import Mathlib.Data.List.Induction
import Mathlib.Tactic.Ring
import Xidata.Eosiolib.Types
import Xidata.Library.ByteCode

/-!
The codes of symbols.  Below the letters of a symbol, the first one lowest, lies the byte of
its precision; above them there are only zeros.  The check of a code looks at every byte, so a
valid code is written in one way only.
-/

namespace Xidata.Eosiolib

open ByteCode

/-- The loop of `symbol_name_length`, which makes at most `passes` more passes. -/
def symbolNameLengthFrom : ℕ → UInt64 → ℕ
  | 0, _ => 0
  | passes + 1, sym =>
      if sym &&& 0xff = 0 then 0 else symbolNameLengthFrom passes (sym >>> 8) + 1

/-- `symbol_name_length`: the length is tested up to 7, so there may be eight passes. -/
def symbolNameLength (sym : SymbolName) : ℕ := symbolNameLengthFrom 8 (sym >>> 8)

/-! ### Words -/

def IsUpper (c : Char) : Prop := 'A' ≤ c ∧ c ≤ 'Z'

/-- The words that name a symbol. -/
structure IsSymbolWord (w : List Char) : Prop where
  ne_nil : w ≠ []
  length_le : w.length ≤ 7
  upper : ∀ c ∈ w, IsUpper c

def letterByte (c : Char) : UInt8 := c.toNat.toUInt8

/-- The seven bytes above the precision are the letters of `w`, and zeros after them. -/
structure Spells (v : UInt64) (w : List Char) : Prop where
  word : IsSymbolWord w
  bytes : littleEndian 7 (v >>> 8).toNat = w.map letterByte ++ List.replicate (7 - w.length) 0

/-- The number that the letters of a word make up. -/
def wordCode (w : List Char) : ℕ := ofLittleEndian (w.map letterByte)

theorem toNat_low_eight (n : UInt64) : (n &&& 0xff).toNat = n.toNat % 256 := by
  rw [UInt64.toNat_and]
  exact Nat.and_two_pow_sub_one_eq_mod _ 8

theorem toNat_shiftRight_eight (n : UInt64) : (n >>> 8).toNat = n.toNat / 256 := by
  rw [UInt64.toNat_shiftRight]
  exact Nat.shiftRight_eq_div_pow _ 8

theorem low_eight_eq_zero_iff (n : UInt64) : n &&& 0xff = 0 ↔ n.toNat % 256 = 0 := by
  rw [← UInt64.toNat_inj, toNat_low_eight]
  rfl

theorem toNat_letterByte {c : Char} (h : IsUpper c) : (letterByte c).toNat = c.toNat := by
  have hle : c.toNat ≤ 90 := h.2
  simp [letterByte]
  omega

theorem isUpper_toNat {c : Char} (h : IsUpper c) : 65 ≤ c.toNat ∧ c.toNat ≤ 90 := h

theorem wordCode_cons {c : Char} (h : IsUpper c) (w : List Char) :
    wordCode (c :: w) = c.toNat + 256 * wordCode w := by
  rw [wordCode, List.map_cons, ofLittleEndian, toNat_letterByte h, wordCode]

theorem wordCode_eq_zero_iff {w : List Char} (h : ∀ c ∈ w, IsUpper c) :
    wordCode w = 0 ↔ w = [] := by
  cases w with
  | nil => simp [wordCode, ofLittleEndian]
  | cons c w =>
      have hc := h c List.mem_cons_self
      have hupper := isUpper_toNat hc
      rw [wordCode_cons hc]
      simp
      omega

theorem wordCode_injective {w w' : List Char} (h : ∀ c ∈ w, IsUpper c) (h' : ∀ c ∈ w', IsUpper c)
    (heq : wordCode w = wordCode w') : w = w' := by
  induction w generalizing w' with
  | nil => exact ((wordCode_eq_zero_iff h').mp heq.symm).symm
  | cons c w ih =>
      cases w' with
      | nil => exact (wordCode_eq_zero_iff h).mp heq
      | cons c' w' =>
          have hc := h c List.mem_cons_self
          have hc' := h' c' List.mem_cons_self
          have hupper := isUpper_toNat hc
          have hupper' := isUpper_toNat hc'
          rw [wordCode_cons hc, wordCode_cons hc'] at heq
          have hletter : c = c' := Char.toNat_inj.mp (by omega)
          rw [hletter, ih (fun d hd => h d (List.mem_cons_of_mem c hd))
            (fun d hd => h' d (List.mem_cons_of_mem c' hd)) (by omega)]

theorem spells_iff {v : UInt64} {w : List Char} :
    Spells v w ↔ IsSymbolWord w ∧ (v >>> 8).toNat = wordCode w := by
  have hlt : (v >>> 8).toNat < 256 ^ 7 := by
    have hv := v.toNat_lt
    rw [toNat_shiftRight_eight]
    omega
  have hbytes (hw : IsSymbolWord w) :
      littleEndian 7 (v >>> 8).toNat = w.map letterByte ++ List.replicate (7 - w.length) 0 ↔
        (v >>> 8).toNat = wordCode w := by
    have hlength := hw.length_le
    rw [littleEndian_eq_iff hlt (by simp; omega), ofLittleEndian_append,
      ofLittleEndian_replicate_zero, Nat.mul_zero, Nat.add_zero, wordCode]
  constructor
  · rintro ⟨hw, h⟩
    exact ⟨hw, (hbytes hw).mp h⟩
  · rintro ⟨hw, h⟩
    exact ⟨hw, (hbytes hw).mpr h⟩

theorem Spells.eq {v : UInt64} {w w' : List Char} (h : Spells v w) (h' : Spells v w') : w = w' :=
  wordCode_injective h.word.upper h'.word.upper
    ((spells_iff.mp h).2.symm.trans (spells_iff.mp h').2)

/-! ### The check -/

theorem restIsZero_iff (k : ℕ) (sym : UInt64) :
    restIsZero k sym = true ↔ sym.toNat / 256 % 256 ^ k = 0 := by
  induction k generalizing sym with
  | zero => simp [restIsZero, Nat.mod_one]
  | succ k ih =>
      have hsplit := Nat.mod_mul (x := sym.toNat / 256) (a := 256) (b := 256 ^ k)
      rw [restIsZero, pow_succ', hsplit]
      split
      · rename_i h
        rw [ne_eq, low_eight_eq_zero_iff, toNat_shiftRight_eight] at h
        simp only [Bool.false_eq_true, false_iff]
        omega
      · rename_i h
        rw [ne_eq, not_not, low_eight_eq_zero_iff, toNat_shiftRight_eight] at h
        rw [ih, toNat_shiftRight_eight, h, Nat.zero_add]
        simp

theorem isUpper_ofNat : ∀ k < 91, 65 ≤ k → IsUpper (Char.ofNat k) ∧ (Char.ofNat k).toNat = k := by
  unfold IsUpper
  decide

theorem isUpper_iff_low (n : UInt64) :
    65 ≤ n &&& 0xff ∧ n &&& 0xff ≤ 90 ↔ ∃ c, IsUpper c ∧ c.toNat = n.toNat % 256 := by
  rw [UInt64.le_iff_toNat_le, UInt64.le_iff_toNat_le, toNat_low_eight]
  constructor
  · rintro ⟨hge, hle⟩
    exact ⟨Char.ofNat (n.toNat % 256), isUpper_ofNat _ (Nat.lt_succ_of_le hle) hge⟩
  · rintro ⟨c, hc, heq⟩
    rw [← heq]
    exact isUpper_toNat hc

/-- The code of a word ends with its first letter. -/
theorem exists_word_iff {i n : ℕ} :
    (∃ w, w ≠ [] ∧ w.length ≤ i + 1 ∧ (∀ c ∈ w, IsUpper c) ∧ n = wordCode w) ↔
      ∃ c, (IsUpper c ∧ c.toNat = n % 256) ∧
        ∃ w : List Char, w.length ≤ i ∧ (∀ c ∈ w, IsUpper c) ∧ n / 256 = wordCode w := by
  constructor
  · rintro ⟨w, hne, hlength, hupper, hcode⟩
    obtain ⟨c, w, rfl⟩ := List.exists_cons_of_ne_nil hne
    obtain ⟨hc, hw⟩ := List.forall_mem_cons.mp hupper
    have hbound := isUpper_toNat hc
    rw [wordCode_cons hc] at hcode
    exact ⟨c, ⟨hc, by omega⟩, w, Nat.le_of_succ_le_succ hlength, hw, by omega⟩
  · rintro ⟨c, ⟨hc, hletter⟩, w, hlength, hw, hcode⟩
    refine ⟨c :: w, List.cons_ne_nil c w, Nat.succ_le_succ hlength,
      List.forall_mem_cons.mpr ⟨hc, hw⟩, ?_⟩
    rw [wordCode_cons hc]
    omega

/-- It ends with a zero byte only if there is no letter. -/
theorem wordCode_mod_eq_zero_iff {w : List Char} (h : ∀ c ∈ w, IsUpper c) :
    wordCode w % 256 = 0 ↔ w = [] := by
  cases w with
  | nil => simp [(wordCode_eq_zero_iff h).mpr]
  | cons c w =>
      have hc := h c List.mem_cons_self
      have hbound := isUpper_toNat hc
      rw [wordCode_cons hc]
      refine iff_of_false (by omega) (List.cons_ne_nil c w)

/-- What the passes that are left accept: a word that goes on to at most as many letters. -/
theorem lettersThenZero_iff {i : ℕ} {sym : UInt64} (hi : i ≠ 0) (h : sym.toNat < 256 ^ i) :
    lettersThenZero i sym = true ↔
      ∃ w, w ≠ [] ∧ w.length ≤ i ∧ (∀ c ∈ w, IsUpper c) ∧ sym.toNat = wordCode w := by
  induction i generalizing sym with
  | zero => exact absurd rfl hi
  | succ i ih =>
      have hrest : (sym >>> 8).toNat < 256 ^ i := by
        rw [toNat_shiftRight_eight]
        exact div_lt_of_lt_pow_succ h
      rw [lettersThenZero, exists_word_iff]
      dsimp only
      split
      · rename_i hlow
        rw [isUpper_iff_low] at hlow
        refine iff_of_false Bool.false_ne_true ?_
        rintro ⟨c, hletter, -⟩
        exact hlow ⟨c, hletter⟩
      · rename_i hlow
        have hletter := (isUpper_iff_low sym).mp (not_not.mp hlow)
        have hword : (∃ c, (IsUpper c ∧ c.toNat = sym.toNat % 256) ∧ ∃ w : List Char,
            w.length ≤ i ∧ (∀ c ∈ w, IsUpper c) ∧ sym.toNat / 256 = wordCode w) ↔
            ∃ w : List Char, w.length ≤ i ∧ (∀ c ∈ w, IsUpper c) ∧
              sym.toNat / 256 = wordCode w := by
          rw [exists_and_right, and_iff_right hletter]
        rw [hword]
        split
        · rename_i hzero
          -- the next byte is zero: the word ends here, and the do-loop reads the rest
          rw [low_eight_eq_zero_iff, toNat_shiftRight_eight] at hzero
          have hsmall : (sym >>> 8).toNat / 256 % 256 ^ (i + 1) = (sym >>> 8).toNat / 256 := by
            apply Nat.mod_eq_of_lt
            have hpow : 256 ^ (i + 1) = 256 ^ i * 256 := pow_succ 256 i
            omega
          rw [restIsZero_iff, hsmall, toNat_shiftRight_eight]
          constructor
          · intro hend
            refine ⟨[], Nat.zero_le i, by simp, ?_⟩
            rw [(wordCode_eq_zero_iff (by simp)).mpr rfl]
            omega
          · rintro ⟨w, -, hupper, hcode⟩
            rw [hcode, wordCode_mod_eq_zero_iff hupper] at hzero
            rw [hcode, (wordCode_eq_zero_iff hupper).mpr hzero]
        · rename_i hzero
          rw [low_eight_eq_zero_iff, toNat_shiftRight_eight] at hzero
          have hi : i ≠ 0 := by
            rintro rfl
            rw [pow_zero, toNat_shiftRight_eight] at hrest
            omega
          rw [ih hi hrest, toNat_shiftRight_eight]
          constructor
          · rintro ⟨w, -, hword⟩
            exact ⟨w, hword⟩
          · rintro ⟨w, hlength, hupper, hcode⟩
            refine ⟨w, fun hnil => hzero ?_, hlength, hupper, hcode⟩
            rw [hcode, (wordCode_mod_eq_zero_iff hupper).mpr hnil]

theorem isValidSymbol_iff {v : UInt64} : isValidSymbol v = true ↔ ∃ w, Spells v w := by
  have hlt : (v >>> 8).toNat < 256 ^ 7 := by
    have hv := v.toNat_lt
    rw [toNat_shiftRight_eight]
    omega
  rw [isValidSymbol, lettersThenZero_iff (by decide) hlt]
  apply exists_congr
  intro w
  rw [spells_iff]
  constructor
  · rintro ⟨hne, hlength, hupper, hcode⟩
    exact ⟨⟨hne, hlength, hupper⟩, hcode⟩
  · rintro ⟨⟨hne, hlength, hupper⟩, hcode⟩
    exact ⟨hne, hlength, hupper, hcode⟩

/-! ### The length -/

theorem symbolNameLengthFrom_eq {passes : ℕ} {sym : UInt64} {w : List Char}
    (hupper : ∀ c ∈ w, IsUpper c) (hcode : sym.toNat = wordCode w) (h : w.length < passes) :
    symbolNameLengthFrom passes sym = w.length := by
  induction passes generalizing sym w with
  | zero => omega
  | succ passes ih =>
      rw [symbolNameLengthFrom]
      have hstop := low_eight_eq_zero_iff sym
      cases w with
      | nil =>
          rw [(wordCode_eq_zero_iff (by simp)).mpr rfl] at hcode
          rw [if_pos (hstop.mpr (by omega)), List.length_nil]
      | cons c w =>
          have hc := hupper c List.mem_cons_self
          have hbound := isUpper_toNat hc
          rw [wordCode_cons hc] at hcode
          have hrest : (sym >>> 8).toNat = wordCode w := by
            rw [toNat_shiftRight_eight]
            omega
          rw [if_neg (fun hzero => by have := hstop.mp hzero; omega),
            ih (List.forall_mem_cons.mp hupper).2 hrest (Nat.lt_of_succ_lt_succ h),
            List.length_cons]

/-! ### The code of a word -/

/-- One pass of the loop of `string_to_symbol`. -/
def putLetter (result : UInt64) (p : Char × ℕ) : UInt64 :=
  if p.1 < 'A' ∨ 'Z' < p.1 then result
  else result ||| (p.1.toNat.toUInt64 <<< (8 * (1 + p.2)).toUInt64)

theorem wordCode_lt (w : List Char) : wordCode w < 256 ^ w.length := by
  simpa [wordCode] using ofLittleEndian_lt (w.map letterByte)

theorem wordCode_concat (w : List Char) {c : Char} (h : IsUpper c) :
    wordCode (w ++ [c]) = wordCode w + 256 ^ w.length * c.toNat := by
  rw [wordCode, List.map_append, ofLittleEndian_append, List.map_singleton, ofLittleEndian,
    ofLittleEndian, toNat_letterByte h, List.length_map, wordCode, Nat.mul_zero, Nat.add_zero]

/-- The letters put so far stand above the byte that is left for the precision. -/
theorem toNat_foldl_putLetter {w : List Char} (hlength : w.length ≤ 7)
    (hupper : ∀ c ∈ w, IsUpper c) :
    (w.zipIdx.foldl putLetter 0).toNat = 256 * wordCode w := by
  induction w using List.reverseRecOn with
  | nil => rfl
  | append_singleton w c ih =>
      rw [List.length_append, List.length_singleton] at hlength
      rw [List.forall_mem_append] at hupper
      have hc : IsUpper c := hupper.2 c List.mem_cons_self
      have hbound := isUpper_toNat hc
      have hput : ¬ (c < 'A' ∨ 'Z' < c) :=
        not_or.mpr ⟨Char.not_lt.mpr hc.1, Char.not_lt.mpr hc.2⟩
      have hpow : 256 * 256 ^ w.length = 2 ^ (8 * (1 + w.length)) := by
        rw [pow_mul, ← pow_succ', Nat.add_comm]
        rfl
      have hbelow : 256 * wordCode w < 2 ^ (8 * (1 + w.length)) := by
        rw [← hpow]
        exact Nat.mul_lt_mul_of_pos_left (wordCode_lt w) (by decide)
      have hplace : (8 * (1 + w.length)).toUInt64.toNat % 64 = 8 * (1 + w.length) := by
        simp
        omega
      have hletter : c.toNat.toUInt64.toNat = c.toNat := by
        simp
        omega
      have hfits : c.toNat * 2 ^ (8 * (1 + w.length)) < 2 ^ 64 := by
        calc c.toNat * 2 ^ (8 * (1 + w.length))
            ≤ 90 * 2 ^ (8 * (1 + 6)) :=
              Nat.mul_le_mul hbound.2 (Nat.pow_le_pow_right (by decide) (by omega))
          _ < 2 ^ 64 := by decide
      rw [List.zipIdx_append, List.foldl_append, List.zipIdx_singleton, List.foldl_cons,
        List.foldl_nil, putLetter, if_neg hput, UInt64.toNat_or, ih (by omega) hupper.1,
        UInt64.toNat_shiftLeft, Nat.zero_add, hplace, hletter, Nat.shiftLeft_eq,
        Nat.mod_eq_of_lt hfits, Nat.or_comm, ← Nat.shiftLeft_eq,
        ← Nat.shiftLeft_add_eq_or_of_lt hbelow, Nat.shiftLeft_eq, wordCode_concat w hc, ← hpow]
      ring

theorem toNat_stringToSymbol (precision : UInt8) {w : List Char} (h : IsSymbolWord w) :
    (stringToSymbol precision w).toNat = 256 * wordCode w + precision.toNat := by
  have hfold : stringToSymbol precision w = w.zipIdx.foldl putLetter 0 ||| precision.toUInt64 := rfl
  have hprecision : precision.toNat < 2 ^ 8 := precision.toNat_lt
  rw [hfold, UInt64.toNat_or, toNat_foldl_putLetter h.length_le h.upper, UInt8.toNat_toUInt64,
    show 256 * wordCode w = wordCode w <<< 8 by rw [Nat.shiftLeft_eq]; ring,
    ← Nat.shiftLeft_add_eq_or_of_lt hprecision]

theorem spells_stringToSymbol (precision : UInt8) {w : List Char} (h : IsSymbolWord w) :
    Spells (stringToSymbol precision w) w := by
  have hprecision := precision.toNat_lt
  rw [spells_iff, toNat_shiftRight_eight, toNat_stringToSymbol precision h]
  exact ⟨h, by omega⟩

theorem precision_stringToSymbol (precision : UInt8) {w : List Char} (h : IsSymbolWord w) :
    (stringToSymbol precision w).toUInt8 = precision := by
  have hprecision := precision.toNat_lt
  apply UInt8.toNat_inj.mp
  rw [UInt64.toNat_toUInt8, toNat_stringToSymbol precision h]
  omega

/-- A code that spells a word is the code of the word with the precision in its low byte. -/
theorem Spells.eq_stringToSymbol {v : UInt64} {w : List Char} (h : Spells v w) :
    v = stringToSymbol v.toUInt8 w := by
  have hcode := (spells_iff.mp h).2
  rw [toNat_shiftRight_eight] at hcode
  apply UInt64.toNat_inj.mp
  rw [toNat_stringToSymbol _ h.word, UInt64.toNat_toUInt8, ← hcode]
  omega

theorem Spells.length {v : UInt64} {w : List Char} (h : Spells v w) :
    symbolNameLength v = w.length :=
  symbolNameLengthFrom_eq h.word.upper (spells_iff.mp h).2 (Nat.lt_succ_of_le h.word.length_le)

/-- The valid codes are those that spell a word of one to seven upper-case letters, which is
then the only one; `symbol_name_length` is its length, and `string_to_symbol` gives the code
back from the precision and the word.  The codes of two different pairs of a precision and a
word are valid and different. -/
theorem isValidSymbol_spec :
    (∀ v, isValidSymbol v = true ↔ ∃ w, Spells v w) ∧
      (∀ v w, Spells v w → symbolNameLength v = w.length ∧ v = stringToSymbol v.toUInt8 w) ∧
      ∀ p w p' w', IsSymbolWord w → IsSymbolWord w' →
        isValidSymbol (stringToSymbol p w) = true ∧
          (stringToSymbol p w = stringToSymbol p' w' → p = p' ∧ w = w') := by
  refine ⟨fun v => isValidSymbol_iff, fun v w h => ⟨h.length, h.eq_stringToSymbol⟩, ?_⟩
  intro p w p' w' hw hw'
  refine ⟨isValidSymbol_iff.mpr ⟨w, spells_stringToSymbol p hw⟩, fun heq => ⟨?_, ?_⟩⟩
  · rw [← precision_stringToSymbol p hw, heq, precision_stringToSymbol p' hw']
  · exact (heq ▸ spells_stringToSymbol p hw).eq (spells_stringToSymbol p' hw')

end Xidata.Eosiolib
