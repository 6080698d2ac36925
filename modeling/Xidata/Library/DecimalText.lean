import Mathlib.Algebra.Order.Field.Rat
import Mathlib.Tactic.FieldSimp
import Xidata.Library.Positional

/-!
Decimal numbers in writing: an optional sign, the digits of the integer part, a point, and the
digits of the fraction.
-/

namespace DecimalText

open Positional

structure Decimal where
  negative : Bool
  whole : List Char
  fraction : List Char
  whole_ne_nil : whole ≠ []
  isDigit : ∀ c ∈ whole ++ fraction, c.isDigit = true

namespace Decimal

def sign (d : Decimal) : List Char := if d.negative then ['-'] else []

def text (d : Decimal) : List Char := d.sign ++ d.whole ++ '.' :: d.fraction

/-- The number that is written. -/
def value (d : Decimal) : ℚ :=
  (if d.negative then -1 else 1) *
    (Nat.ofDigitChars 10 d.whole 0 + Nat.ofDigitChars 10 d.fraction 0 / 10 ^ d.fraction.length)

end Decimal

/-- The last `w` decimal digits of a number, as characters. -/
def digitChars (w n : ℕ) : List Char := (digits 10 w n).map Nat.digitChar

@[simp] theorem length_digitChars (w n : ℕ) : (digitChars w n).length = w := by
  rw [digitChars, List.length_map, length_digits]

theorem isDigit_of_mem_digitChars {w n : ℕ} {c : Char} (h : c ∈ digitChars w n) :
    c.isDigit = true := by
  obtain ⟨d, hd, rfl⟩ := List.mem_map.mp h
  rw [Nat.isDigit_digitChar]
  exact decide_eq_true (digits_lt (by decide) hd)

theorem ofDigitChars_map {l : List ℕ} (h : ∀ d ∈ l, d < 10) :
    Nat.ofDigitChars 10 (l.map Nat.digitChar) 0 = value 10 l := by
  induction l using List.reverseRecOn with
  | nil => rfl
  | append_singleton l d ih =>
      rw [List.forall_mem_append] at h
      rw [List.map_append, Nat.ofDigitChars_append, ih h.1, value_concat, List.map_singleton,
        Nat.ofDigitChars_cons_digitChar_of_lt_ten (h.2 d List.mem_cons_self),
        Nat.ofDigitChars_nil, Nat.mul_comm]

theorem ofDigitChars_digitChars {w n : ℕ} (h : n < 10 ^ w) :
    Nat.ofDigitChars 10 (digitChars w n) 0 = n := by
  rw [digitChars, ofDigitChars_map fun d hd => digits_lt (by decide) hd, value_digits h]

/-- The number with the integer part `q` and the fraction `r / 10 ^ p`. -/
def Decimal.ofParts (negative : Bool) (q p r : ℕ) : Decimal where
  negative := negative
  whole := Nat.toDigits 10 q
  fraction := digitChars p r
  whole_ne_nil := Nat.toDigits_ne_nil
  isDigit c hc := by
    rcases List.mem_append.mp hc with h | h
    · exact Nat.isDigit_of_mem_toDigits (by decide) (by decide) h
    · exact isDigit_of_mem_digitChars h

theorem Decimal.value_ofParts {negative : Bool} {q p r : ℕ} (h : r < 10 ^ p) :
    (Decimal.ofParts negative q p r).value =
      (if negative then -1 else 1) * ((q * 10 ^ p + r : ℕ) : ℚ) / 10 ^ p := by
  have hfraction : (Decimal.ofParts negative q p r).fraction.length = p := length_digitChars p r
  have hwhole : Nat.ofDigitChars 10 (Decimal.ofParts negative q p r).whole 0 = q :=
    Nat.ofDigitChars_ten_toDigits
  have hrest : Nat.ofDigitChars 10 (Decimal.ofParts negative q p r).fraction 0 = r :=
    ofDigitChars_digitChars h
  rw [Decimal.value, hfraction, hwhole, hrest, mul_div_assoc]
  congr 1
  push_cast
  field_simp

end DecimalText
