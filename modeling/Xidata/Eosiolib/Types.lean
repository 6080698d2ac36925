import Mathlib.Algebra.Group.Int.Defs
import Mathlib.Algebra.Group.Nat.Defs
import Mathlib.Data.Int.Notation
import Mathlib.Data.Prod.Lex
import Mathlib.Order.Basic

/-!
Account names and symbols of the contract library: 64-bit values with a
base-32 (names) or byte-wise (symbols) reading.
-/

namespace Xidata.Eosiolib

instance uint64LinearOrder : LinearOrder UInt64 where
  le_refl := UInt64.le_refl
  le_trans _ _ _ := UInt64.le_trans
  le_antisymm _ _ := UInt64.le_antisymm
  le_total := UInt64.le_total
  lt_iff_le_not_ge a b := by
    rw [UInt64.not_le]
    exact ⟨fun h => ⟨UInt64.le_of_lt h, h⟩, And.right⟩
  toDecidableLE := inferInstance

/-! ### Signed and unsigned -/

theorem toInt_toInt64 {x : UInt64} (h : x.toNat < 2 ^ 63) : x.toInt64.toInt = x.toNat := by
  have hb : 2 * x.toBitVec.toNat < 2 ^ 64 := by
    rw [UInt64.toNat_toBitVec]
    omega
  exact BitVec.toInt_eq_toNat_of_lt hb

theorem toNat_toUInt64 {x : Int64} (h : 0 ≤ x.toInt) : (x.toUInt64.toNat : ℤ) = x.toInt := by
  have hle : 0 ≤ x := Int64.le_iff_toInt_le.mpr h
  rw [Int64.toNat_toUInt64_of_le hle]
  exact Int.toNat_of_nonneg h

theorem toNat_add_of_lt {x y : UInt64} (h : x.toNat + y.toNat < 2 ^ 64) :
    (x + y).toNat = x.toNat + y.toNat := by
  rw [UInt64.toNat_add, Nat.mod_eq_of_lt h]

theorem toInt_add_of_bounds {x y : Int64} (h : -2 ^ 63 ≤ x.toInt + y.toInt)
    (h' : x.toInt + y.toInt < 2 ^ 63) : (x + y).toInt = x.toInt + y.toInt := by
  rw [Int64.toInt_add]
  exact Int.bmod_eq_of_le (by omega) (by omega)

theorem toInt_sub_of_bounds {x y : Int64} (h : -2 ^ 63 ≤ x.toInt - y.toInt)
    (h' : x.toInt - y.toInt < 2 ^ 63) : (x - y).toInt = x.toInt - y.toInt := by
  rw [Int64.toInt_sub]
  exact Int.bmod_eq_of_le (by omega) (by omega)

theorem toInt_mul_of_bounds {x y : Int64} (h : -2 ^ 63 ≤ x.toInt * y.toInt)
    (h' : x.toInt * y.toInt < 2 ^ 63) : (x * y).toInt = x.toInt * y.toInt := by
  rw [Int64.toInt_mul]
  exact Int.bmod_eq_of_le (by omega) (by omega)

/-- A count of blocks as an amount. -/
theorem toInt_toUInt64 (x : UInt32) : x.toUInt64.toInt64.toInt = x.toNat := by
  have hlt : x.toUInt64.toNat < 2 ^ 63 := by
    rw [UInt32.toNat_toUInt64]
    exact x.toNat_lt.trans (by decide)
  rw [toInt_toInt64 hlt, UInt32.toNat_toUInt64]

abbrev AccountName := UInt64
abbrev SymbolName := UInt64

/-! ### Names -/

def charToSymbol (c : Char) : UInt64 :=
  if 'a' ≤ c ∧ c ≤ 'z' then (c.toNat - 'a'.toNat + 6).toUInt64
  else if '1' ≤ c ∧ c ≤ '5' then (c.toNat - '1'.toNat + 1).toUInt64
  else 0

def stringToName (str : List Char) : UInt64 :=
  (List.range 13).foldl (fun value i =>
    let c := if i < str.length then charToSymbol (str.getD i '.') else 0
    value ||| (if i < 12 then (c &&& 0x1f) <<< (64 - 5 * (i + 1)).toUInt64 else c &&& 0x0f)) 0

/-- The macro `N(X)`. -/
def N (str : String) : AccountName := stringToName str.toList

/-- The characters after the last dot of a name, as a name; a name without a
dot between two of its characters is its own suffix. -/
def nameSuffix (n : UInt64) : UInt64 :=
  -- the scan keeps (position of the last dot seen, position of the last actual dot)
  let scan := (List.range 12).foldl (fun (acc : UInt64 × UInt64) i =>
    let remainingBits := (59 - 5 * i).toUInt64
    let c := (n >>> remainingBits) &&& 0x1f
    if c = 0 then (remainingBits, acc.2) else (acc.1, acc.1)) (0, 0)
  let thirteenthCharacter := n &&& 0x0f
  let remainingBitsAfterLastActualDot := if thirteenthCharacter ≠ 0 then scan.1 else scan.2
  if remainingBitsAfterLastActualDot = 0 then n
  else
    let mask := (1 <<< remainingBitsAfterLastActualDot) - 16
    let shift := 64 - remainingBitsAfterLastActualDot
    ((n &&& mask) <<< shift) + (thirteenthCharacter <<< (shift - 1))

def charmap : List Char := ".12345abcdefghijklmnopqrstuvwxyz".toList

/-- `name::to_string`: the characters are read off from the right, the last
one four bits wide and the others five. -/
def nameToString (value : UInt64) : String :=
  let last := charmap.getD (value &&& 0x0f).toNat '.'
  let chars := (List.range 12).foldl (fun (acc : UInt64 × List Char) _ =>
    (acc.1 >>> 5, charmap.getD (acc.1 &&& 0x1f).toNat '.' :: acc.2)) (value >>> 4, [last])
  -- a name of dots only is not trimmed
  if chars.2.all (· = '.') then String.ofList chars.2
  else String.ofList (chars.2.reverse.dropWhile (· = '.')).reverse

/-! ### Symbols -/

def stringToSymbol (precision : UInt8) (str : List Char) : UInt64 :=
  (str.zipIdx.foldl (fun result p =>
    if p.1 < 'A' ∨ 'Z' < p.1 then result
    else result ||| (p.1.toNat.toUInt64 <<< (8 * (1 + p.2)).toUInt64)) 0) ||| precision.toUInt64

/-- The do-loop of `is_valid_symbol`: every remaining byte must be zero. -/
def restIsZero : ℕ → UInt64 → Bool
  | 0, _ => true
  | i + 1, sym =>
      let sym := sym >>> 8
      if sym &&& 0xff ≠ 0 then false else restIsZero i sym

/-- The for-loop of `is_valid_symbol` with `i` passes left. -/
def lettersThenZero : ℕ → UInt64 → Bool
  | 0, _ => true
  | i + 1, sym =>
      let c := sym &&& 0xff
      if ¬ (65 ≤ c ∧ c ≤ 90) then false
      else
        let sym := sym >>> 8
        if sym &&& 0xff = 0 then restIsZero (i + 1) sym else lettersThenZero i sym

def isValidSymbol (sym : SymbolName) : Bool := lettersThenZero 7 (sym >>> 8)

structure SymbolType where
  value : UInt64
  deriving DecidableEq

namespace SymbolType

def isValid (s : SymbolType) : Bool := isValidSymbol s.value

def precision (s : SymbolType) : UInt64 := s.value &&& 0xff

def name (s : SymbolType) : SymbolName := s.value >>> 8

end SymbolType

/-- The macro `S(P,X)`. -/
def S (precision : UInt8) (str : String) : SymbolType := ⟨stringToSymbol precision str.toList⟩

/-- The core symbol under the default build configuration. -/
def coreSymbol : SymbolType := S 4 "SYS"

/-! ### Keys of scoped tables -/

/-- Scope and primary key of a row in a table with one scope per account. -/
structure Scoped where
  scope : AccountName
  key : UInt64
  deriving DecidableEq

instance scopedLinearOrder : LinearOrder Scoped :=
  LinearOrder.lift' (fun k => toLex (k.scope, k.key)) (by
    rintro ⟨a, b⟩ ⟨c, d⟩ h
    simpa using h)

end Xidata.Eosiolib
