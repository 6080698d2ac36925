import Mathlib.Tactic.IntervalCases
import Mathlib.Tactic.SplitIfs
import Xidata.Library.Positional

/-!
The names that the launcher of a test network gives to its producers.  The first 27 keep
old names, which differ in their last letters; the others are numbers to the base 26.
-/

namespace Xidata.Launcher

open Positional (digits value)

def totalChars : ℕ := 12

def slotChars : List Char :=
  ['a', 'b', 'c', 'd', 'e', 'f', 'g', 'h', 'i', 'j', 'k', 'l', 'm', 'n', 'o', 'p', 'q', 'r', 's',
    't', 'u', 'v', 'w', 'x', 'y', 'z']

def validCharRange : ℕ := 26

def slotChar (slotValue : ℕ) : Char := slotChars.getD slotValue 'a'

/-- The array `prod_name` at first. -/
def prodName : List Char := ['d', 'e', 'f', 'p', 'r', 'o', 'd', 'u', 'c', 'e', 'r', 'a']

/-- The loop over the slots from the last one on, with the number that is left; `loc` slots
are still to come. -/
def fillSlots : ℕ → ℕ → List Char → List Char × ℕ
  | 0, number, name => (name, number)
  | loc + 1, number, name =>
    let name := name.set loc (slotChar (number % validCharRange))
    let number := number / validCharRange
    if number = 0 then (name, number) else fillSlots loc number name

/-- The array before the loop: from the 28th producer on its last seven letters are the first
letter. -/
def blankName (producerNumber : UInt32) : List Char :=
  if validCharRange < producerNumber.toNat then
    (List.range' 5 (totalChars - 5)).foldl (fun name loc => name.set loc (slotChar 0)) prodName
  else prodName

def producerName (producerNumber : UInt32) : Except String String :=
  match fillSlots totalChars producerNumber.toNat (blankName producerNumber) with
  | (name, number) =>
    if name = prodName ∧ number ≠ 0 then
      .error "launcher not designed to handle numbers this large "
    else .ok (String.ofList name)

/-! ### What the loop writes -/

/-- A number that fits between `first` and `rest` is written there. -/
theorem fillSlots_eq {w n : ℕ} (hw : 0 < w) (h : n < validCharRange ^ w) (first rest : List Char) :
    fillSlots (first.length + w) n (first ++ List.replicate w (slotChar 0) ++ rest) =
      (first ++ (digits validCharRange w n).map slotChar ++ rest, 0) := by
  induction w generalizing n rest with
  | zero => cases hw
  | succ w ih =>
      have hset : (first ++ List.replicate (w + 1) (slotChar 0) ++ rest).set (first.length + w)
          (slotChar (n % validCharRange)) = first ++ List.replicate w (slotChar 0) ++
            (slotChar (n % validCharRange) :: rest) := by
        rw [List.replicate_succ', List.append_assoc, List.append_assoc,
              List.set_append_right _ _ (by omega),
          Nat.add_sub_cancel_left, List.append_assoc, List.set_append_right _ _ (by simp)]
        simp
      rw [← Nat.add_assoc, fillSlots, hset]
      have hdigits : (digits validCharRange (w + 1) n).map slotChar ++ rest =
          (digits validCharRange w (n / validCharRange)).map slotChar ++
            slotChar (n % validCharRange) :: rest := by
        rw [digits, List.map_append, List.append_assoc]
        rfl
      split
      · next hzero =>
          rw [List.append_assoc, List.append_assoc, hdigits, hzero, Positional.digits_zero,
            List.map_replicate]
      · next hne =>
          have hlt : n / validCharRange < validCharRange ^ w :=
            Nat.div_lt_of_lt_mul (by rwa [pow_succ'] at h)
          have hpos : 0 < w := by
            rcases Nat.eq_zero_or_pos w with rfl | hpos
            · exact absurd (Nat.lt_one_iff.mp hlt) hne
            · exact hpos
          rw [ih hpos hlt, List.append_assoc, List.append_assoc first, hdigits]

theorem validCharRange_pos : 0 < validCharRange := by decide

theorem slotChar_toNat {v : ℕ} (h : v < validCharRange) : (slotChar v).toNat - 97 = v := by
  unfold validCharRange at h
  interval_cases v <;> rfl

/-- The number that the letters after the first five stand for. -/
def nameNumber (name : List Char) : ℕ :=
  value validCharRange ((name.drop 5).map fun c => c.toNat - 97)

theorem producerName_eq {n : UInt32} {name : List Char}
    (h : fillSlots totalChars n.toNat (blankName n) = (name, 0)) :
    producerName n = .ok (String.ofList name) := by
  rw [producerName, h]
  exact if_neg fun hthrow => hthrow.2 rfl

/-- The letters of a number are read back. -/
theorem map_slotChar {l : List ℕ} (h : ∀ d ∈ l, d < validCharRange) :
    (l.map slotChar).map (fun c => c.toNat - 97) = l := by
  rw [List.map_map]
  exact (List.map_congr_left fun d hd => slotChar_toNat (h d hd)).trans l.map_id

/-- From the 28th producer on the name is the number, written with seven letters. -/
theorem producerName_numbered {n : UInt32} (h : validCharRange < n.toNat) :
    ∃ name, producerName n = .ok (String.ofList name) ∧ nameNumber name = n.toNat ∧
      name.length = totalChars := by
  have hlt : n.toNat < validCharRange ^ 7 := n.toNat_lt.trans (by decide)
  have hblank : blankName n = prodName.take 5 ++ List.replicate 7 (slotChar 0) ++ [] := if_pos h
  have hslots := fillSlots_eq (by decide) hlt (prodName.take 5) []
  rw [← hblank] at hslots
  refine ⟨_, producerName_eq hslots, ?_, by simp [totalChars, prodName]⟩
  have hfirst : (prodName.take 5).length = 5 := rfl
  rw [nameNumber, List.append_nil, List.drop_left' hfirst,
    map_slotChar fun d hd => Positional.digits_lt validCharRange_pos hd,
    Positional.value_digits hlt]

/-- What the last seven letters of an old name stand for, without the last one. -/
def oldNumber : ℕ := value validCharRange [14, 3, 20, 2, 4, 17, 0]

/-- The first 26 names differ in the last letter. -/
theorem producerName_old {n : UInt32} (h : n.toNat < validCharRange) :
    ∃ name, producerName n = .ok (String.ofList name) ∧ nameNumber name = oldNumber + n.toNat ∧
      name.length = totalChars := by
  have hblank : blankName n = prodName := if_neg (by omega)
  have hslots : fillSlots totalChars n.toNat (blankName n) =
      (prodName.set 11 (slotChar n.toNat), 0) := by
    rw [hblank]
    change (if n.toNat / validCharRange = 0 then _ else _) = _
    rw [Nat.div_eq_of_lt h, if_pos rfl, Nat.mod_eq_of_lt h]
  refine ⟨_, producerName_eq hslots, ?_, by simp [totalChars, prodName]⟩
  have hlast : ((prodName.set 11 (slotChar n.toNat)).drop 5).map (fun c => c.toNat - 97) =
      [14, 3, 20, 2, 4, 17] ++ [(slotChar n.toNat).toNat - 97] := rfl
  rw [nameNumber, hlast, Positional.value_concat, slotChar_toNat h]
  rfl

/-- The 27th name still has the letters of an old one in it. -/
theorem producerName_last {n : UInt32} (h : n.toNat = validCharRange) :
    ∃ name, producerName n = .ok (String.ofList name) ∧
      nameNumber name = value validCharRange [14, 3, 20, 2, 4, 1, 0] ∧
        name.length = totalChars := by
  have hblank : blankName n = prodName := if_neg (by omega)
  have hslots : fillSlots totalChars n.toNat (blankName n) =
      ((prodName.set 11 (slotChar 0)).set 10 (slotChar 1), 0) := by
    rw [hblank, h]
    rfl
  exact ⟨_, producerName_eq hslots, rfl, rfl⟩

/-- The number of a name tells which of the names it is: the old ones stand for numbers that no
producer has. -/
theorem exists_producerName (n : UInt32) :
    ∃ name, producerName n = .ok (String.ofList name) ∧ name.length = totalChars ∧
      nameNumber name = if validCharRange < n.toNat then n.toNat
        else if n.toNat = validCharRange then value validCharRange [14, 3, 20, 2, 4, 1, 0]
        else oldNumber + n.toNat := by
  split
  · next h =>
      obtain ⟨name, hname, hnumber, hlength⟩ := producerName_numbered h
      exact ⟨name, hname, hlength, hnumber⟩
  · split
    · next h =>
        obtain ⟨name, hname, hnumber, hlength⟩ := producerName_last h
        exact ⟨name, hname, hlength, hnumber⟩
    · next hgt hne =>
        obtain ⟨name, hname, hnumber, hlength⟩ := producerName_old (n := n) (by omega)
        exact ⟨name, hname, hlength, hnumber⟩

theorem producerName_inj {m n : UInt32} (h : producerName m = producerName n) : m = n := by
  obtain ⟨name, hname, -, hnumber⟩ := exists_producerName m
  obtain ⟨name', hname', -, hnumber'⟩ := exists_producerName n
  have heq : name = name' := by
    rw [hname, hname'] at h
    exact String.ofList_injective (Except.ok.inj h)
  have hold : oldNumber = 4369642810 := by rfl
  have hlast : value validCharRange [14, 3, 20, 2, 4, 1, 0] = 4369642394 := by rfl
  have hm : m.toNat < 4294967296 := m.toNat_lt
  have hn : n.toNat < 4294967296 := n.toNat_lt
  rw [heq, hnumber', hold, hlast] at hnumber
  unfold validCharRange at hnumber
  refine UInt32.toNat_inj.mp ?_
  split_ifs at hnumber <;> omega

/-- Every number gets a name, of twelve letters, and no two numbers get the same one. -/
theorem producerName_injective :
    (∀ n, ∃ name, producerName n = .ok (String.ofList name) ∧ name.length = totalChars) ∧
    Function.Injective producerName := by
  refine ⟨fun n => ?_, fun m n h => producerName_inj h⟩
  obtain ⟨name, hname, hlength, -⟩ := exists_producerName n
  exact ⟨name, hname, hlength⟩

end Xidata.Launcher
