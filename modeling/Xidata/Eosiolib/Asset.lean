import Mathlib.Tactic.Linarith
import Xidata.Eosiolib.Host

/-!
Assets: a signed 64-bit amount of a symbol.  The arithmetic wraps around and
is range-checked afterwards; every comparison of two assets first asserts that
their symbols agree.  `units` is the amount as an integer, and between assets
in range the checked operations are the exact ones.
-/

namespace Xidata.Eosiolib

structure Asset where
  amount : Int64
  symbol : SymbolType
  deriving DecidableEq

namespace Asset

/-- `asset::max_amount`, which is `2 ^ 62 - 1`. -/
def maxAmount : Int64 := 4611686018427387903

def units (a : Asset) : ℤ := a.amount.toInt

def isAmountWithinRange (a : Asset) : Prop := -maxAmount ≤ a.amount ∧ a.amount ≤ maxAmount

instance (a : Asset) : Decidable a.isAmountWithinRange :=
  inferInstanceAs (Decidable (_ ∧ _))

def isValid (a : Asset) : Prop := a.isAmountWithinRange ∧ a.symbol.isValid

instance (a : Asset) : Decidable a.isValid := inferInstanceAs (Decidable (_ ∧ _))

/-- `asset()` and `asset(0)`. -/
def zero : Asset := ⟨0, coreSymbol⟩

/-- The constructor `asset(a, s)`. -/
def make (a : Int64) (s : SymbolType) : Result Asset := do
  eosioAssert .assetConstructor (Asset.mk a s).isAmountWithinRange
    "magnitude of asset amount must be less than 2^62"
  eosioAssert .assetConstructor s.isValid "invalid symbol name"
  pure ⟨a, s⟩

def neg (a : Asset) : Asset := { a with amount := -a.amount }

/-- `operator-=`. -/
def sub (a b : Asset) : Result Asset := do
  eosioAssert .assetSub (b.symbol = a.symbol) "attempt to subtract asset with different symbol"
  let amount := a.amount - b.amount
  eosioAssert .assetSub (-maxAmount ≤ amount) "subtraction underflow"
  eosioAssert .assetSub (amount ≤ maxAmount) "subtraction overflow"
  pure { a with amount }

/-- `operator+=`. -/
def add (a b : Asset) : Result Asset := do
  eosioAssert .assetAdd (b.symbol = a.symbol) "attempt to add asset with different symbol"
  let amount := a.amount + b.amount
  eosioAssert .assetAdd (-maxAmount ≤ amount) "addition underflow"
  eosioAssert .assetAdd (amount ≤ maxAmount) "addition overflow"
  pure { a with amount }

/-- `operator*=`: the product is taken in 128 bits. -/
def mul (a : Asset) (b : Int64) : Result Asset := do
  let tmp := a.amount.toInt * b.toInt
  eosioAssert .assetMul (tmp ≤ maxAmount.toInt) "multiplication overflow"
  eosioAssert .assetMul ((-maxAmount).toInt ≤ tmp) "multiplication underflow"
  pure { a with amount := Int64.ofInt tmp }

/-- The six comparison operators, as one test `p` on the amounts. -/
def compare (p : Int64 → Int64 → Bool) (a b : Asset) : Result Bool := do
  eosioAssert .assetCompare (a.symbol = b.symbol)
    "comparison of assets with different symbols is not allowed"
  pure (p a.amount b.amount)

def eq (a b : Asset) : Result Bool := compare (fun x y => x = y) a b
def ne (a b : Asset) : Result Bool := compare (fun x y => x ≠ y) a b
def lt (a b : Asset) : Result Bool := compare (fun x y => x < y) a b
def le (a b : Asset) : Result Bool := compare (fun x y => x ≤ y) a b
def gt (a b : Asset) : Result Bool := compare (fun x y => y < x) a b
def ge (a b : Asset) : Result Bool := compare (fun x y => y ≤ x) a b

/-! ### What the checked operations return -/

theorem units_maxAmount : maxAmount.toInt = 2 ^ 62 - 1 := by decide

@[simp] theorem units_zero : zero.units = 0 := rfl

@[simp] theorem symbol_zero : zero.symbol = coreSymbol := rfl

theorem isAmountWithinRange_iff {a : Asset} :
    a.isAmountWithinRange ↔ -(2 ^ 62 - 1) ≤ a.units ∧ a.units ≤ 2 ^ 62 - 1 := by
  have hneg : (-maxAmount).toInt = -(2 ^ 62 - 1) := by decide
  rw [isAmountWithinRange, Int64.le_iff_toInt_le, Int64.le_iff_toInt_le, hneg, units_maxAmount,
    units]

@[simp] theorem make_eq_ok {a : Int64} {s : SymbolType} {c : Asset} :
    make a s = .ok c ↔ (Asset.mk a s).isAmountWithinRange ∧ s.isValid ∧ c = ⟨a, s⟩ := by
  simp only [make, Rollback.bind_eq_ok, eosioAssert_eq_ok, exists_const, Rollback.pure_eq_ok]
  exact and_congr_right' (and_congr_right' eq_comm)

@[simp] theorem add_eq_ok {a b c : Asset} :
    a.add b = .ok c ↔
      b.symbol = a.symbol ∧ c = ⟨a.amount + b.amount, a.symbol⟩ ∧ c.isAmountWithinRange := by
  simp only [add, Rollback.bind_eq_ok, eosioAssert_eq_ok, exists_const, Rollback.pure_eq_ok,
    isAmountWithinRange]
  constructor
  · rintro ⟨hs, h₁, h₂, rfl⟩; exact ⟨hs, rfl, h₁, h₂⟩
  · rintro ⟨hs, rfl, h₁, h₂⟩; exact ⟨hs, h₁, h₂, rfl⟩

@[simp] theorem sub_eq_ok {a b c : Asset} :
    a.sub b = .ok c ↔
      b.symbol = a.symbol ∧ c = ⟨a.amount - b.amount, a.symbol⟩ ∧ c.isAmountWithinRange := by
  simp only [sub, Rollback.bind_eq_ok, eosioAssert_eq_ok, exists_const, Rollback.pure_eq_ok,
    isAmountWithinRange]
  constructor
  · rintro ⟨hs, h₁, h₂, rfl⟩; exact ⟨hs, rfl, h₁, h₂⟩
  · rintro ⟨hs, rfl, h₁, h₂⟩; exact ⟨hs, h₁, h₂, rfl⟩

@[simp] theorem mul_eq_ok {a c : Asset} {b : Int64} :
    a.mul b = .ok c ↔ a.units * b.toInt ≤ 2 ^ 62 - 1 ∧ -(2 ^ 62 - 1) ≤ a.units * b.toInt ∧
      c = ⟨Int64.ofInt (a.units * b.toInt), a.symbol⟩ := by
  have hneg : (-maxAmount).toInt = -(2 ^ 62 - 1) := by decide
  simp only [mul, Rollback.bind_eq_ok, eosioAssert_eq_ok, exists_const, Rollback.pure_eq_ok,
    units_maxAmount, hneg]
  exact and_congr_right' (and_congr_right' eq_comm)

/-- A comparison whose test on the amounts decides `q` returns that decision. -/
theorem compare_eq_ok {p : Int64 → Int64 → Bool} {a b : Asset} {r : Bool} {q : Prop}
    [Decidable q] (hq : p a.amount b.amount = true ↔ q) :
    compare p a b = .ok r ↔ a.symbol = b.symbol ∧ decide q = r := by
  have hp : p a.amount b.amount = decide q := by
    rw [Bool.eq_iff_iff, hq, decide_eq_true_iff]
  simp [compare, hp]

theorem le_eq_ok {a b : Asset} {r : Bool} :
    a.le b = .ok r ↔ a.symbol = b.symbol ∧ decide (a.units ≤ b.units) = r :=
  compare_eq_ok (by simp [Int64.le_iff_toInt_le, units])

theorem lt_eq_ok {a b : Asset} {r : Bool} :
    a.lt b = .ok r ↔ a.symbol = b.symbol ∧ decide (a.units < b.units) = r :=
  compare_eq_ok (by simp [Int64.lt_iff_toInt_lt, units])

theorem ge_eq_ok {a b : Asset} {r : Bool} :
    a.ge b = .ok r ↔ a.symbol = b.symbol ∧ decide (b.units ≤ a.units) = r :=
  compare_eq_ok (by simp [Int64.le_iff_toInt_le, units])

theorem gt_eq_ok {a b : Asset} {r : Bool} :
    a.gt b = .ok r ↔ a.symbol = b.symbol ∧ decide (b.units < a.units) = r :=
  compare_eq_ok (by simp [Int64.lt_iff_toInt_lt, units])

theorem eq_eq_ok {a b : Asset} {r : Bool} :
    a.eq b = .ok r ↔ a.symbol = b.symbol ∧ decide (a.units = b.units) = r :=
  compare_eq_ok (by simp [← Int64.toInt_inj, units])

/-! ### Exactness

A value reduced modulo `2 ^ 64` is unchanged when it was in the signed range;
two amounts in range have a sum and a difference that fit. -/

theorem bmod_eq_self {x : ℤ} (h₁ : -2 ^ 63 ≤ x) (h₂ : x < 2 ^ 63) : x.bmod (2 ^ 64) = x :=
  Int.bmod_eq_of_le (by omega) (by omega)

theorem units_add {a b : Asset} (ha : a.isAmountWithinRange) (hb : b.isAmountWithinRange)
    (s : SymbolType) : (Asset.mk (a.amount + b.amount) s).units = a.units + b.units := by
  rw [isAmountWithinRange_iff] at ha hb
  simp only [units] at *
  rw [Int64.toInt_add]
  exact bmod_eq_self (by omega) (by omega)

theorem units_sub {a b : Asset} (ha : a.isAmountWithinRange) (hb : b.isAmountWithinRange)
    (s : SymbolType) : (Asset.mk (a.amount - b.amount) s).units = a.units - b.units := by
  rw [isAmountWithinRange_iff] at ha hb
  simp only [units] at *
  rw [Int64.toInt_sub]
  exact bmod_eq_self (by omega) (by omega)

theorem units_neg {a : Asset} (ha : a.isAmountWithinRange) : a.neg.units = -a.units := by
  rw [isAmountWithinRange_iff] at ha
  simp only [units, neg] at *
  rw [Int64.toInt_neg]
  exact bmod_eq_self (by omega) (by omega)

@[simp] theorem symbol_neg (a : Asset) : a.neg.symbol = a.symbol := rfl

theorem neg_isAmountWithinRange {a : Asset} (ha : a.isAmountWithinRange) :
    a.neg.isAmountWithinRange := by
  have hneg := units_neg ha
  rw [isAmountWithinRange_iff] at ha ⊢
  omega

/-- A checked addition of assets in range is exact. -/
theorem add_units {a b c : Asset} (ha : a.isAmountWithinRange) (hb : b.isAmountWithinRange)
    (h : a.add b = .ok c) : c.units = a.units + b.units := by
  obtain ⟨-, rfl, -⟩ := add_eq_ok.mp h
  exact units_add ha hb _

/-- A checked subtraction of assets in range is exact. -/
theorem sub_units {a b c : Asset} (ha : a.isAmountWithinRange) (hb : b.isAmountWithinRange)
    (h : a.sub b = .ok c) : c.units = a.units - b.units := by
  obtain ⟨-, rfl, -⟩ := sub_eq_ok.mp h
  exact units_sub ha hb _

/-- A checked multiplication is exact. -/
theorem mul_units {a c : Asset} {b : Int64} (h : a.mul b = .ok c) :
    c.units = a.units * b.toInt ∧ c.isAmountWithinRange := by
  obtain ⟨hle, hge, rfl⟩ := mul_eq_ok.mp h
  have hunits : (Asset.mk (Int64.ofInt (a.units * b.toInt)) a.symbol).units =
      a.units * b.toInt := by
    rw [units, Int64.toInt_ofInt]
    exact bmod_eq_self (by omega) (by omega)
  rw [isAmountWithinRange_iff, hunits]
  exact ⟨rfl, hge, hle⟩

/-! ### Failures that cannot happen -/

section Avoids

variable {B : Failure → Prop}

theorem avoids_make (a : Int64) (s : SymbolType)
    (h : ∀ msg, ¬ B (.assertion .assetConstructor msg)) : Rollback.Avoids B (make a s) :=
  (avoids_eosioAssert fun _ => h _).bind fun _ _ =>
    (avoids_eosioAssert fun _ => h _).bind fun _ _ => Rollback.avoids_pure _

theorem avoids_sub (a b : Asset) (h : ∀ msg, ¬ B (.assertion .assetSub msg)) :
    Rollback.Avoids B (a.sub b) :=
  (avoids_eosioAssert fun _ => h _).bind fun _ _ =>
    (avoids_eosioAssert fun _ => h _).bind fun _ _ =>
      (avoids_eosioAssert fun _ => h _).bind fun _ _ => Rollback.avoids_pure _

theorem avoids_add (a b : Asset) (h : ∀ msg, ¬ B (.assertion .assetAdd msg)) :
    Rollback.Avoids B (a.add b) :=
  (avoids_eosioAssert fun _ => h _).bind fun _ _ =>
    (avoids_eosioAssert fun _ => h _).bind fun _ _ =>
      (avoids_eosioAssert fun _ => h _).bind fun _ _ => Rollback.avoids_pure _

theorem avoids_compare (p : Int64 → Int64 → Bool) (a b : Asset)
    (h : ∀ msg, ¬ B (.assertion .assetCompare msg)) : Rollback.Avoids B (compare p a b) :=
  (avoids_eosioAssert fun _ => h _).bind fun _ _ => Rollback.avoids_pure _

end Avoids

end Asset

end Xidata.Eosiolib
