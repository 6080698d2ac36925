import Xidata.ChainPlugin.Scopes
import Xidata.Eosiolib.Names

/-!
The index of a table that a query asks for.  The low nibble of a table's name is for the
position of a secondary index; the text of the request spells that position, or is its number.
A position is counted from the primary index, which is the first, and the secondary indices
from zero.
-/

namespace Xidata.ChainPlugin

open Eosiolib (AccountName)

inductive TableQueryError
  /-- "Unsupported table name: ${n}" -/
  | unsupportedTable (n : AccountName)
  /-- "Invalid index_position: ${p}" -/
  | invalidIndexPosition (p : List Char)
  deriving DecidableEq

def startsWith (str : List Char) (word : String) : Bool := word.toList.isPrefixOf str

/-- The position that `index_position` stands for, and whether it is the primary index.
`toUint64` is the library's, and gives nothing where that throws. -/
def indexPos (toUint64 : List Char → Option UInt64) (p : List Char) :
    Except TableQueryError (UInt64 × Bool) :=
  if p = [] ∨ p = "first".toList ∨ p = "primary".toList ∨ p = "one".toList then .ok (0, true)
  else if startsWith p "sec" ∨ p = "two".toList then .ok (0, false)
  else if startsWith p "ter" ∨ startsWith p "th" then .ok (1, false)
  else if startsWith p "fou" then .ok (2, false)
  else if startsWith p "fi" then .ok (3, false)
  else if startsWith p "six" then .ok (4, false)
  else if startsWith p "sev" then .ok (5, false)
  else if startsWith p "eig" then .ok (6, false)
  else if startsWith p "nin" then .ok (7, false)
  else if startsWith p "ten" then .ok (8, false)
  else
    match toUint64 p with
    | none => .error (.invalidIndexPosition p)
    | some pos => if pos < 2 then .ok (0, true) else .ok (pos - 2, false)

/-- The name that the index is kept under, and whether it is the primary one. -/
def getTableIndexName (toUint64 : List Char → Option UInt64) (table : AccountName)
    (indexPosition : List Char) : Except TableQueryError (UInt64 × Bool) :=
  let index := table &&& 0xFFFFFFFFFFFFFFF0
  if index ≠ table then .error (.unsupportedTable table)
  else do
    let (pos, primary) ← indexPos toUint64 indexPosition
    return (index ||| (pos &&& 0xF), primary)

/-! ### What a text asks for -/

/-- The beginnings of the words for a position; of the second index there is one whole word. -/
def ordinals : List (String × ℕ) :=
  [("sec", 2), ("ter", 3), ("th", 3), ("fou", 4), ("fi", 5), ("six", 6), ("sev", 7), ("eig", 8),
    ("nin", 9), ("ten", 10)]

/-- The position that a text spells. -/
def spelled (str : List Char) : Option ℕ :=
  if str ∈ [[], "first".toList, "primary".toList, "one".toList] then some 1
  else if str = "two".toList then some 2
  else (ordinals.find? fun o => startsWith str o.1).map Prod.snd

/-- The position that a text asks for, as a word or as a number. -/
def requested (toUint64 : List Char → Option UInt64) (str : List Char) : Option ℕ :=
  (spelled str).or ((toUint64 str).map UInt64.toNat)

example : ["second", "secondary", "tertiary", "ternary", "third", "three", "four", "fourth",
      "five", "fifth", "six", "sixth", "seven", "seventh", "ten", "tenth"].map
        (fun word => spelled word.toList) =
    [2, 2, 3, 3, 3, 3, 4, 4, 5, 5, 6, 6, 7, 7, 10, 10].map some := by
  decide

/-- The answer about the index `n` of a table: an error, the table itself if that is the
primary index, or the name with the position of the secondary index in its low nibble. -/
def Selects (table : AccountName) (n : Option ℕ) : Except TableQueryError (UInt64 × Bool) → Prop
  | .error _ => True
  | .ok (index, true) => index = table ∧ ∃ k < 2, n = some k
  | .ok (index, false) => ∃ k, 2 ≤ k ∧ n = some k ∧
      index.toNat / 16 = table.toNat / 16 ∧ index.toNat % 16 = k - 2

/-- Two texts for one table select what they ask for, and the same secondary index only for
the same position. -/
structure SelectsFaithfully (toUint64 : List Char → Option UInt64) (table : AccountName)
    (str str' : List Char) : Prop where
  left : Selects table (requested toUint64 str) (getTableIndexName toUint64 table str)
  right : Selects table (requested toUint64 str') (getTableIndexName toUint64 table str')
  same_iff : ∀ index index', getTableIndexName toUint64 table str = .ok (index, false) →
    getTableIndexName toUint64 table str' = .ok (index', false) →
    (index = index' ↔ requested toUint64 str = requested toUint64 str')

/-- A name that leaves the low nibble to the index. -/
def LeavesNibble (table : AccountName) : Prop := table.toNat % 16 = 0

/-- The text asks for no position past the sixteen that a nibble has room for. -/
def WithinNibble (toUint64 : List Char → Option UInt64) (str : List Char) : Prop :=
  ∀ n, requested toUint64 str = some n → n < 18

variable {toUint64 : List Char → Option UInt64} {table : AccountName} {str str' : List Char}

/-! ### The index of a text -/

/-- The position, counted as the code counts it. -/
def positionOf (n : ℕ) : UInt64 × Bool := if n < 2 then (0, true) else (.ofNat (n - 2), false)

theorem positionOf_toNat (pos : UInt64) :
    positionOf pos.toNat = if pos < 2 then (0, true) else (pos - 2, false) := by
  have hlt : pos < 2 ↔ pos.toNat < 2 := UInt64.lt_iff_toNat_lt
  simp only [positionOf, hlt]
  split
  · rfl
  · rename_i h
    have hle : (2 : UInt64) ≤ pos := UInt64.not_lt.mp (hlt.not.mpr h)
    have hsub := UInt64.toNat_sub_of_le _ _ hle
    rw [show pos.toNat - 2 = (pos - 2).toNat from hsub.symm, UInt64.ofNat_toNat]

/-- A word of the table is one branch of the code. -/
theorem elim_find?_cons (w : String) (n : ℕ) (os : List (String × ℕ))
    (e : Except TableQueryError (UInt64 × Bool)) :
    (((w, n) :: os).find? fun o => startsWith str o.1).elim e (fun o => .ok (positionOf o.2)) =
      if startsWith str w then .ok (positionOf n)
      else (os.find? fun o => startsWith str o.1).elim e (fun o => .ok (positionOf o.2)) := by
  rw [List.find?_cons]
  cases startsWith str w <;> rfl

theorem indexPos_of_word (hfirst : str ∉ [[], "first".toList, "primary".toList, "one".toList])
    (htwo : str ≠ "two".toList) :
    indexPos toUint64 str = (ordinals.find? fun o => startsWith str o.1).elim
      ((toUint64 str).elim (.error (.invalidIndexPosition str)) fun pos =>
        .ok (positionOf pos.toNat))
      (fun o => .ok (positionOf o.2)) := by
  unfold indexPos
  rw [if_neg (by simpa using hfirst)]
  simp only [ordinals, elim_find?_cons, List.find?_nil, Option.elim_none, htwo, or_false, ite_or,
    positionOf_toNat]
  cases toUint64 str with
  | none => rfl
  | some pos =>
    dsimp only [Option.elim_some]
    rw [apply_ite Except.ok]
    rfl

theorem indexPos_eq : indexPos toUint64 str = (requested toUint64 str).elim
    (.error (.invalidIndexPosition str)) (fun n => .ok (positionOf n)) := by
  unfold requested spelled
  split
  · rename_i hfirst
    rw [indexPos, if_pos (by simpa using hfirst)]
    rfl
  rename_i hfirst
  split
  · rename_i htwo
    rw [htwo]
    rfl
  · rename_i htwo
    rw [indexPos_of_word hfirst htwo]
    cases ordinals.find? fun o => startsWith str o.1 with
    | some o => rfl
    | none => cases toUint64 str <;> rfl

/-! ### The low nibble -/

theorem clearNibble_eq_iff : table &&& 0xFFFFFFFFFFFFFFF0 = table ↔ LeavesNibble table := by
  have hmask := Eosiolib.and_mask table.toNat (by decide : 4 ≤ 64)
  have hlt := table.toNat_lt
  rw [← UInt64.toNat_inj, UInt64.toNat_and, LeavesNibble]
  change table.toNat &&& (2 ^ 64 - 16) = _ ↔ _
  rw [hmask]
  omega

theorem toNat_putNibble (table pos : UInt64) :
    (table ||| (pos &&& 0xF)).toNat / 16 = table.toNat / 16 ∧
      (LeavesNibble table → (table ||| (pos &&& 0xF)).toNat % 16 = pos.toNat % 16) := by
  have hpos : (pos &&& 0xF).toNat = pos.toNat % 2 ^ 4 := by
    rw [UInt64.toNat_and]
    exact Nat.and_two_pow_sub_one_eq_mod _ 4
  rw [UInt64.toNat_or, hpos]
  constructor
  · rw [show 16 = 2 ^ 4 from rfl, Nat.or_div_two_pow,
      Nat.div_eq_of_lt (Nat.mod_lt _ (by decide : 0 < 2 ^ 4)), Nat.or_zero]
  · intro h
    rw [show 16 = 2 ^ 4 from rfl, Nat.or_mod_two_pow, h, Nat.zero_or, Nat.mod_mod]

theorem getTableIndexName_of_not_leavesNibble (h : ¬LeavesNibble table) :
    getTableIndexName toUint64 table str = .error (.unsupportedTable table) :=
  if_pos (clearNibble_eq_iff.not.mpr h)

theorem getTableIndexName_of_leavesNibble (h : LeavesNibble table) :
    getTableIndexName toUint64 table str = (requested toUint64 str).elim
      (.error (.invalidIndexPosition str))
      (fun n => .ok (table ||| ((positionOf n).1 &&& 0xF), (positionOf n).2)) := by
  have hclear := clearNibble_eq_iff.mpr h
  rw [getTableIndexName, hclear, if_neg (not_not_intro rfl), indexPos_eq]
  cases requested toUint64 str <;> rfl

theorem selects_positionOf (h : LeavesNibble table) (n : ℕ) :
    Selects table (some n) (.ok (table ||| ((positionOf n).1 &&& 0xF), (positionOf n).2)) ↔
      n < 18 := by
  obtain ⟨hhigh, hlow⟩ := toNat_putNibble table (positionOf n).1
  by_cases hn : n < 2
  · have hpos : positionOf n = (0, true) := if_pos hn
    have heq : table ||| ((0 : UInt64) &&& 0xF) = table := UInt64.or_zero
    simp only [hpos, Selects, heq, true_and, Option.some.injEq]
    exact iff_of_true ⟨n, hn, rfl⟩ (by omega)
  · have hpos : positionOf n = (.ofNat (n - 2), false) := if_neg hn
    have hmod : (UInt64.ofNat (n - 2)).toNat % 16 = (n - 2) % 16 := by
      rw [UInt64.toNat_ofNat']
      omega
    rw [hpos] at hhigh hlow ⊢
    simp only [Selects, Option.some.injEq, hhigh, hlow h, hmod, true_and]
    constructor
    · rintro ⟨k, -, rfl, hk⟩
      omega
    · intro hlt
      exact ⟨n, by omega, rfl, by omega⟩

theorem selects_iff (h : LeavesNibble table) :
    Selects table (requested toUint64 str) (getTableIndexName toUint64 table str) ↔
      WithinNibble toUint64 str := by
  rw [getTableIndexName_of_leavesNibble h]
  unfold WithinNibble
  cases requested toUint64 str with
  | none => exact iff_of_true trivial (by simp)
  | some n => simpa using selects_positionOf h n

theorem selects_same {n n' : Option ℕ} {index index' : UInt64}
    (h : Selects table n (.ok (index, false))) (h' : Selects table n' (.ok (index', false))) :
    index = index' ↔ n = n' := by
  obtain ⟨k, hk, rfl, hhigh, hlow⟩ := h
  obtain ⟨k', hk', rfl, hhigh', hlow'⟩ := h'
  rw [← UInt64.toNat_inj, Option.some.injEq]
  omega

/-- Two texts select faithfully exactly if the table has an index in its name, which is an
error, or both ask for a position below the eighteenth. -/
theorem getTableIndexName_faithful_iff (toUint64 : List Char → Option UInt64) (table : AccountName)
    (str str' : List Char) :
    SelectsFaithfully toUint64 table str str' ↔
      (LeavesNibble table → WithinNibble toUint64 str ∧ WithinNibble toUint64 str') := by
  constructor
  · intro h hnibble
    exact ⟨(selects_iff hnibble).mp h.left, (selects_iff hnibble).mp h.right⟩
  · intro h
    by_cases hnibble : LeavesNibble table
    · have hleft := (selects_iff hnibble).mpr (h hnibble).1
      have hright := (selects_iff hnibble).mpr (h hnibble).2
      refine ⟨hleft, hright, ?_⟩
      intro index index' heq heq'
      rw [heq] at hleft
      rw [heq'] at hright
      exact selects_same hleft hright
    · have herror (s : List Char) :
          getTableIndexName toUint64 table s = .error (.unsupportedTable table) :=
        getTableIndexName_of_not_leavesNibble hnibble
      constructor
      · rw [herror]
        trivial
      · rw [herror]
        trivial
      · intro index index' heq
        rw [herror] at heq
        cases heq

/-- The eighteenth index of the table "accounts" is the second one. -/
theorem eighteenth_is_second :
    getTableIndexName lexicalCast 0x32114D4F38000000 "18".toList =
        getTableIndexName lexicalCast 0x32114D4F38000000 "second".toList ∧
      (∃ index, getTableIndexName lexicalCast 0x32114D4F38000000 "18".toList =
        .ok (index, false)) ∧
      ¬∀ table str str', SelectsFaithfully lexicalCast table str str' := by
  have hsame : getTableIndexName lexicalCast 0x32114D4F38000000 "18".toList =
      .ok (0x32114D4F38000000, false) := by decide +kernel
  have hsecond : getTableIndexName lexicalCast 0x32114D4F38000000 "second".toList =
      .ok (0x32114D4F38000000, false) := by decide +kernel
  refine ⟨hsame.trans hsecond.symm, ⟨_, hsame⟩, ?_⟩
  intro h
  have hnumbers := ((h _ _ _).same_iff _ _ hsame hsecond).mp rfl
  revert hnumbers
  decide +kernel

end Xidata.ChainPlugin
