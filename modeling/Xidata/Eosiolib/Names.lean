import Mathlib.Data.List.DropRight
import Mathlib.Data.List.GetD
import Xidata.Eosiolib.Types
import Xidata.Library.Positional

/-!
The text of an account name.  A name has twelve characters of five bits and a thirteenth of
four, the first one in the highest bits; a dot is zero, and the dots at the end of a text are
left out.  The suffix of a name is what its text has after the last dot.
-/

namespace Xidata.Eosiolib

open Positional

/-! ### Fields of a word -/

theorem toNat_low_four (n : UInt64) : (n &&& 0x0f).toNat = n.toNat % 16 := by
  rw [UInt64.toNat_and]
  exact Nat.and_two_pow_sub_one_eq_mod _ 4

theorem toNat_low_five (n : UInt64) : (n &&& 0x1f).toNat = n.toNat % 32 := by
  rw [UInt64.toNat_and]
  exact Nat.and_two_pow_sub_one_eq_mod _ 5

theorem toNat_shiftRight_four (n : UInt64) : (n >>> 4).toNat = n.toNat / 16 := by
  rw [UInt64.toNat_shiftRight]
  exact Nat.shiftRight_eq_div_pow _ 4

theorem toNat_shiftRight_five (n : UInt64) : (n >>> 5).toNat = n.toNat / 32 := by
  rw [UInt64.toNat_shiftRight]
  exact Nat.shiftRight_eq_div_pow _ 5

/-! ### The characters of a name -/

/-- The thirteen characters of a name as numbers. -/
def symbols (n : UInt64) : List ℕ := digits 32 12 (n.toNat / 16) ++ [n.toNat % 16]

@[simp] theorem length_symbols (n : UInt64) : (symbols n).length = 13 := by
  simp [symbols]

theorem symbols_lt {n : UInt64} {d : ℕ} (h : d ∈ symbols n) : d < 32 := by
  rw [symbols, List.mem_append, List.mem_singleton] at h
  rcases h with h | rfl
  · exact digits_lt (by decide) h
  · omega

theorem toNat_eq_value (n : UInt64) :
    n.toNat = value 32 (digits 32 12 (n.toNat / 16)) * 16 + n.toNat % 16 := by
  have hlt := n.toNat_lt
  have hvalue : value 32 (digits 32 12 (n.toNat / 16)) = n.toNat / 16 :=
    value_digits (by omega)
  omega

theorem symbols_injective : Function.Injective symbols := by
  intro m n h
  obtain ⟨hfirst, hlast⟩ := List.append_inj h (by simp)
  apply UInt64.toNat_inj.mp
  rw [toNat_eq_value m, toNat_eq_value n, hfirst, List.singleton_inj.mp hlast]

/-- A name by its characters. -/
theorem symbols_eq {n : UInt64} {l : List ℕ} {d : ℕ} (hlength : l.length = 12)
    (hl : ∀ x ∈ l, x < 32) (hd : d < 16) (h : n.toNat = value 32 l * 16 + d) :
    symbols n = l ++ [d] := by
  have hdigits : digits 32 12 (value 32 l) = l := hlength ▸ digits_value hl
  have hdiv : n.toNat / 16 = value 32 l := by omega
  have hmod : n.toNat % 16 = d := by omega
  rw [symbols, hdiv, hmod, hdigits]

theorem symbols_zero : symbols 0 = List.replicate 13 0 := by
  decide

/-- One of the first twelve characters, as it is cut out of the integer. -/
theorem symbol_shift (n : UInt64) {i : ℕ} (h : i < 12) :
    (symbols n)[i]? = some ((n >>> (59 - 5 * i).toUInt64) &&& 0x1f).toNat := by
  have hplace : (59 - 5 * i).toUInt64.toNat % 64 = 59 - 5 * i := by
    simp
    omega
  have hpow : 16 * 32 ^ (12 - 1 - i) = 2 ^ (59 - 5 * i) := by
    rw [show (16 : ℕ) = 2 ^ 4 from rfl, show (32 : ℕ) = 2 ^ 5 from rfl, ← pow_mul, ← pow_add]
    congr 1
    omega
  rw [symbols, List.getElem?_append_left (by simpa using h), getElem?_digits _ h,
    Nat.div_div_eq_div_mul, hpow, toNat_low_five, UInt64.toNat_shiftRight, hplace,
    Nat.shiftRight_eq_div_pow]

/-! ### From text to name -/

/-- What `string_to_name` reads at a place of a text: zero where it has ended. -/
def charSymbol (str : List Char) (i : ℕ) : ℕ :=
  if i < str.length then (charToSymbol (str.getD i '.')).toNat else 0

theorem charToSymbol_lt (c : Char) : (charToSymbol c).toNat < 32 := by
  unfold charToSymbol
  split
  · rename_i h
    have hz : c.toNat ≤ 122 := h.2
    have ha : 97 ≤ c.toNat := h.1
    simp
    omega
  · split
    · rename_i h
      have hz : c.toNat ≤ 53 := h.2
      have ha : 49 ≤ c.toNat := h.1
      simp
      omega
    · decide

theorem charSymbol_lt (str : List Char) (i : ℕ) : charSymbol str i < 32 := by
  unfold charSymbol
  split
  · exact charToSymbol_lt _
  · decide

/-- One pass of the loop of `string_to_name`. -/
def putChar (str : List Char) (value : UInt64) (i : ℕ) : UInt64 :=
  let c := if i < str.length then charToSymbol (str.getD i '.') else 0
  value ||| (if i < 12 then (c &&& 0x1f) <<< (64 - 5 * (i + 1)).toUInt64 else c &&& 0x0f)

theorem toNat_charSymbol (str : List Char) (i : ℕ) :
    (if i < str.length then charToSymbol (str.getD i '.') else 0).toNat = charSymbol str i := by
  unfold charSymbol
  split <;> rfl

/-- The characters read so far stand in the highest bits, above zeros. -/
theorem toNat_foldl_putChar (str : List Char) {k : ℕ} (hk : k ≤ 12) :
    ((List.range k).foldl (putChar str) 0).toNat =
      value 32 ((List.range k).map (charSymbol str)) * 2 ^ (64 - 5 * k) := by
  induction k with
  | zero => simp [value]
  | succ k ih =>
      have hlt := charSymbol_lt str k
      have hmask : ((if k < str.length then charToSymbol (str.getD k '.') else 0) &&& 0x1f).toNat =
          charSymbol str k := by
        rw [toNat_low_five, toNat_charSymbol, Nat.mod_eq_of_lt hlt]
      have hplace : (64 - 5 * (k + 1)).toUInt64.toNat % 64 = 64 - 5 * (k + 1) := by
        simp
      have hstep : 2 ^ (64 - 5 * k) = 32 * 2 ^ (64 - 5 * (k + 1)) := by
        rw [show 64 - 5 * k = 5 + (64 - 5 * (k + 1)) by omega, pow_add]
        rfl
      have hfits : charSymbol str k * 2 ^ (64 - 5 * (k + 1)) < 2 ^ (64 - 5 * k) := by
        rw [hstep]
        exact Nat.mul_lt_mul_of_pos_right hlt (Nat.two_pow_pos _)
      have hword : charSymbol str k * 2 ^ (64 - 5 * (k + 1)) < 2 ^ 64 :=
        hfits.trans_le (Nat.pow_le_pow_right (by decide) (by omega))
      rw [List.range_succ, List.foldl_append, List.map_append]
      simp only [List.foldl_cons, List.foldl_nil, List.map_cons, List.map_nil]
      rw [putChar, if_pos (by omega : k < 12), UInt64.toNat_or, ih (by omega),
        UInt64.toNat_shiftLeft, hmask, hplace, Nat.shiftLeft_eq, Nat.mod_eq_of_lt hword,
        ← Nat.shiftLeft_eq, ← Nat.shiftLeft_add_eq_or_of_lt hfits, Nat.shiftLeft_eq, value_concat,
        hstep]
      ring

theorem symbols_stringToName (str : List Char) :
    symbols (stringToName str) =
      (List.range 12).map (charSymbol str) ++ [charSymbol str 12 % 16] := by
  have hlast : ((if 12 < str.length then charToSymbol (str.getD 12 '.') else 0) &&& 0x0f).toNat =
      charSymbol str 12 % 16 := by
    rw [toNat_low_four, toNat_charSymbol]
  have hfits : charSymbol str 12 % 16 < 2 ^ (64 - 5 * 12) := Nat.mod_lt _ (by decide)
  apply symbols_eq
  · simp
  · simp only [List.mem_map, forall_exists_index, and_imp]
    rintro _ i - rfl
    exact charSymbol_lt str i
  · omega
  · have hfold : stringToName str = (List.range (12 + 1)).foldl (putChar str) 0 := rfl
    rw [hfold, List.range_succ, List.foldl_append]
    simp only [List.foldl_cons, List.foldl_nil]
    rw [putChar, if_neg (lt_irrefl 12), UInt64.toNat_or, toNat_foldl_putChar str (le_refl 12),
      hlast, ← Nat.shiftLeft_eq, ← Nat.shiftLeft_add_eq_or_of_lt hfits, Nat.shiftLeft_eq]

/-- A text that fits into a name, and the dots after it. -/
theorem symbols_stringToName_of_fits {str : List Char} (hlength : str.length ≤ 13)
    (hlast : charSymbol str 12 < 16) :
    symbols (stringToName str) =
      str.map (fun c => (charToSymbol c).toNat) ++ List.replicate (13 - str.length) 0 := by
  have hrange : (List.range 12).map (charSymbol str) ++ [charSymbol str 12 % 16] =
      (List.range 13).map (charSymbol str) := by
    rw [List.range_succ, List.map_append, Nat.mod_eq_of_lt hlast]
    rfl
  rw [symbols_stringToName, hrange]
  apply List.ext_getElem
  · simp
    omega
  · intro i hi hi'
    rw [List.getElem_map, List.getElem_range, charSymbol]
    split
    · rename_i h
      rw [List.getElem_append_left (by simpa using h), List.getElem_map,
        ← List.getElem_eq_getD]
    · rename_i h
      rw [List.getElem_append_right (by simpa using h), List.getElem_replicate]

/-! ### From name to text -/

/-- The character for a number of five bits. -/
def charOf (d : ℕ) : Char := charmap.getD d '.'

theorem charToSymbol_charOf : ∀ d < 32, (charToSymbol (charOf d)).toNat = d := by
  decide

theorem charOf_eq_dot_iff : ∀ d < 32, charOf d = '.' ↔ d = 0 := by
  decide

/-- The characters that names are written with. -/
def IsNameChar (c : Char) : Prop := c = '.' ∨ '1' ≤ c ∧ c ≤ '5' ∨ 'a' ≤ c ∧ c ≤ 'z'

/-- Those of them that fit into four bits, the dot left out. -/
def IsLastChar (c : Char) : Prop := '1' ≤ c ∧ c ≤ '5' ∨ 'a' ≤ c ∧ c ≤ 'j'

theorem mem_charmap_of_isNameChar {c : Char} (h : IsNameChar c) : c ∈ charmap := by
  have hdigit : ∀ k < 54, 49 ≤ k → Char.ofNat k ∈ charmap := by decide
  have hletter : ∀ k < 123, 97 ≤ k → Char.ofNat k ∈ charmap := by decide
  rw [← Char.ofNat_toNat c]
  rcases h with rfl | ⟨hge, hle⟩ | ⟨hge, hle⟩
  · decide
  · exact hdigit _ (Nat.lt_succ_of_le hle) hge
  · exact hletter _ (Nat.lt_succ_of_le hle) hge

theorem charOf_charToSymbol {c : Char} (h : IsNameChar c) : charOf (charToSymbol c).toNat = c := by
  -- Over the list: there may be an instance that goes through all characters.
  have hall : charmap.all (fun c => charOf (charToSymbol c).toNat = c) = true := by decide
  exact of_decide_eq_true (List.all_eq_true.mp hall c (mem_charmap_of_isNameChar h))

theorem charToSymbol_lt_of_isLastChar {c : Char} (h : IsLastChar c) :
    (charToSymbol c).toNat < 16 := by
  have hdigit : ∀ k < 54, 49 ≤ k → (charToSymbol (Char.ofNat k)).toNat < 16 := by decide
  have hletter : ∀ k < 107, 97 ≤ k → (charToSymbol (Char.ofNat k)).toNat < 16 := by decide
  rw [← Char.ofNat_toNat c]
  rcases h with ⟨hge, hle⟩ | ⟨hge, hle⟩
  · exact hdigit _ (Nat.lt_succ_of_le hle) hge
  · exact hletter _ (Nat.lt_succ_of_le hle) hge

/-- The loop of `to_string` puts the characters before each other, the last one first. -/
theorem foldl_toString (k : ℕ) (tmp : UInt64) (str : List Char) :
    let chars := (List.range k).foldl (fun (acc : UInt64 × List Char) _ =>
      (acc.1 >>> 5, charmap.getD (acc.1 &&& 0x1f).toNat '.' :: acc.2)) (tmp, str)
    chars.1.toNat = tmp.toNat / 32 ^ k ∧ chars.2 = (digits 32 k tmp.toNat).map charOf ++ str := by
  induction k with
  | zero => simp [digits]
  | succ k ih =>
      obtain ⟨htmp, hstr⟩ := ih
      rw [List.range_succ, List.foldl_append]
      dsimp only [List.foldl_cons, List.foldl_nil]
      constructor
      · rw [toNat_shiftRight_five, htmp, Nat.div_div_eq_div_mul, pow_succ]
      · rw [toNat_low_five, htmp, hstr, Nat.add_comm k 1, digits_append]
        simp [digits, charOf]

theorem dropWhile_map_of_forall {α β : Type*} {f : α → β} {p : β → Bool} {q : α → Bool}
    {l : List α} (h : ∀ x ∈ l, p (f x) = q x) : (l.map f).dropWhile p = (l.dropWhile q).map f := by
  induction l with
  | nil => rfl
  | cons x l ih =>
      rw [List.map_cons, List.dropWhile_cons, List.dropWhile_cons, h x List.mem_cons_self]
      split
      · exact ih fun y hy => h y (List.mem_cons_of_mem x hy)
      · rfl

theorem toList_nameToString (n : UInt64) :
    (nameToString n).toList =
      if n = 0 then List.replicate 13 '.' else ((symbols n).rdropWhile (· = 0)).map charOf := by
  obtain ⟨-, hchars⟩ := foldl_toString 12 (n >>> 4) [charmap.getD (n &&& 0x0f).toNat '.']
  have hsymbols : ((List.range 12).foldl (fun (acc : UInt64 × List Char) _ =>
      (acc.1 >>> 5, charmap.getD (acc.1 &&& 0x1f).toNat '.' :: acc.2))
      (n >>> 4, [charmap.getD (n &&& 0x0f).toNat '.'])).2 = (symbols n).map charOf := by
    rw [hchars, toNat_shiftRight_four, toNat_low_four, symbols, List.map_append]
    rfl
  have hdot : ∀ d ∈ symbols n, charOf d = '.' ↔ d = 0 :=
    fun d hd => charOf_eq_dot_iff d (symbols_lt hd)
  have hzero : ((symbols n).map charOf).all (· = '.') ↔ n = 0 := by
    rw [← symbols_injective.eq_iff, symbols_zero, List.eq_replicate_iff]
    simp +contextual [hdot]
  unfold nameToString
  dsimp only
  rw [hsymbols]
  by_cases hn : n = 0
  · rw [if_pos (hzero.mpr hn), if_pos hn, hn, symbols_zero]
    rfl
  · have hrev : ∀ d ∈ (symbols n).reverse, decide (charOf d = '.') = decide (d = 0) :=
      fun d hd => decide_eq_decide.mpr (hdot d (List.mem_reverse.mp hd))
    rw [if_neg (fun h => hn (hzero.mp h)), if_neg hn, String.toList_ofList, ← List.map_reverse,
      dropWhile_map_of_forall hrev, ← List.map_reverse]
    rfl

/-- The characters of a name up to its last one that is no dot. -/
def trimmed (n : UInt64) : List ℕ := (symbols n).rdropWhile (· = 0)

theorem symbols_eq_trimmed (n : UInt64) :
    symbols n = trimmed n ++ List.replicate (13 - (trimmed n).length) 0 := by
  have hsplit := List.rdropWhile_append_rtakeWhile (p := fun d => decide (d = 0)) (l := symbols n)
  have hzero : (symbols n).rtakeWhile (· = 0) =
      List.replicate ((symbols n).rtakeWhile (· = 0)).length 0 :=
    List.eq_replicate_iff.mpr ⟨rfl, fun d hd => by simpa using List.mem_rtakeWhile_imp hd⟩
  have hlength := congrArg List.length hsplit
  rw [List.length_append, length_symbols] at hlength
  have hrest : ((symbols n).rtakeWhile (· = 0)).length = 13 - (trimmed n).length := by
    rw [trimmed]
    omega
  rw [← hrest, ← hzero]
  exact hsplit.symm

theorem trimmed_eq {n : UInt64} {t : List ℕ} {k : ℕ} (h : symbols n = t ++ List.replicate k 0)
    (hlast : ∀ ht : t ≠ [], t.getLast ht ≠ 0) : trimmed n = t := by
  have ht : t.rdropWhile (· = 0) = t :=
    List.rdropWhile_eq_self_iff.mpr fun hl => by simpa using hlast hl
  rw [trimmed, h]
  clear h
  induction k with
  | zero => rw [List.replicate_zero, List.append_nil, ht]
  | succ k ih =>
      rw [List.replicate_succ', ← List.append_assoc, List.rdropWhile_concat_pos _ _ _ (by simp), ih]

theorem length_trimmed_le (n : UInt64) : (trimmed n).length ≤ 13 := by
  have hlength := congrArg List.length (symbols_eq_trimmed n)
  rw [List.length_append, length_symbols] at hlength
  omega

theorem trimmed_lt {n : UInt64} {d : ℕ} (h : d ∈ trimmed n) : d < 32 :=
  symbols_lt (symbols_eq_trimmed n ▸ List.mem_append_left _ h)

theorem trimmed_injective : Function.Injective trimmed := by
  intro m n h
  apply symbols_injective
  rw [symbols_eq_trimmed m, symbols_eq_trimmed n, h]

theorem trimmed_zero : trimmed 0 = [] := by
  decide

theorem trimmed_getD (n : UInt64) (i : ℕ) : (trimmed n).getD i 0 = (symbols n).getD i 0 := by
  rw [symbols_eq_trimmed n]
  rcases lt_or_ge i (trimmed n).length with h | h
  · rw [List.getD_append _ _ _ _ h]
  · rw [List.getD_eq_default _ _ h, List.getD_append_right _ _ _ _ h,
      List.getD_eq_getElem?_getD, List.getElem?_getD_replicate_default_eq]

/-- The characters of a name as text: `to_string`, except that the empty name has none. -/
def nameChars (n : UInt64) : List Char := if n = 0 then [] else (nameToString n).toList

theorem nameChars_eq (n : UInt64) : nameChars n = (trimmed n).map charOf := by
  unfold nameChars
  split
  · rename_i h
    rw [h, trimmed_zero]
    rfl
  · rename_i h
    rw [toList_nameToString, if_neg h]
    rfl

/-! ### There and back -/

theorem map_charToSymbol_charOf {l : List ℕ} (h : ∀ d ∈ l, d < 32) :
    (l.map charOf).map (fun c => (charToSymbol c).toNat) = l := by
  rw [List.map_map]
  exact (List.map_congr_left fun d hd => charToSymbol_charOf d (h d hd)).trans (List.map_id' l)

theorem charSymbol_map_charOf {l : List ℕ} (h : ∀ d ∈ l, d < 32) (i : ℕ) :
    charSymbol (l.map charOf) i = l.getD i 0 := by
  unfold charSymbol
  rw [List.length_map]
  split
  · rename_i hi
    have hi' : i < (l.map charOf).length := by rwa [List.length_map]
    rw [← List.getElem_eq_getD (h := hi'), ← List.getElem_eq_getD (h := hi), List.getElem_map,
      charToSymbol_charOf _ (h _ (List.getElem_mem hi))]
  · rename_i hi
    rw [List.getD_eq_default _ _ (not_lt.mp hi)]

/-- The characters that fit into a name, written as text and read back. -/
theorem symbols_stringToName_map {l : List ℕ} (hl : ∀ d ∈ l, d < 32) (hlength : l.length ≤ 13)
    (hlast : l.getD 12 0 < 16) :
    symbols (stringToName (l.map charOf)) = l ++ List.replicate (13 - l.length) 0 := by
  have hfits : charSymbol (l.map charOf) 12 < 16 := by
    rwa [charSymbol_map_charOf hl]
  rw [symbols_stringToName_of_fits (by simpa using hlength) hfits, map_charToSymbol_charOf hl,
    List.length_map]

theorem trimmed_getD_lt (n : UInt64) : (trimmed n).getD 12 0 < 16 := by
  rw [trimmed_getD, symbols, List.getD_append_right _ _ _ _ (by simp)]
  simp
  omega

theorem stringToName_nameChars (n : UInt64) : stringToName (nameChars n) = n := by
  apply symbols_injective
  rw [nameChars_eq, symbols_stringToName_map (fun d => trimmed_lt) (length_trimmed_le n)
    (trimmed_getD_lt n), ← symbols_eq_trimmed]

theorem stringToName_nameToString (n : UInt64) : stringToName (nameToString n).toList = n := by
  by_cases hn : n = 0
  · subst hn
    decide
  · have hchars : nameChars n = (nameToString n).toList := if_neg hn
    rw [← hchars, stringToName_nameChars]

/-- A text that names are written with: it does not end in a dot, and a thirteenth character
fits into four bits. -/
structure IsNameText (s : List Char) : Prop where
  char : ∀ c ∈ s, IsNameChar c
  fits : s.length ≤ 12 ∧ s.getLast? ≠ some '.' ∨ s.length = 13 ∧ ∀ c ∈ s.getLast?, IsLastChar c

theorem IsLastChar.ne_dot {c : Char} (h : IsLastChar c) : c ≠ '.' := by
  rintro rfl
  rcases h with ⟨h, -⟩ | ⟨h, -⟩ <;> exact absurd h (by decide)

theorem IsNameText.getLast {s : List Char} (hs : IsNameText s) (h : s ≠ []) :
    s.getLast h ≠ '.' := by
  rcases hs.fits with ⟨-, hlast⟩ | ⟨-, hlast⟩
  · exact fun hdot => hlast (by rw [List.getLast?_eq_getLast_of_ne_nil h, hdot])
  · exact (hlast _ (by rw [List.getLast?_eq_getLast_of_ne_nil h]; rfl)).ne_dot

theorem IsNameText.length_le {s : List Char} (hs : IsNameText s) : s.length ≤ 13 := by
  rcases hs.fits with ⟨hlength, -⟩ | ⟨hlength, -⟩ <;> omega

theorem IsNameText.charSymbol_lt {s : List Char} (hs : IsNameText s) : charSymbol s 12 < 16 := by
  unfold charSymbol
  split
  · rename_i h
    rcases hs.fits with ⟨hlength, -⟩ | ⟨hlength, hlast⟩
    · omega
    · apply charToSymbol_lt_of_isLastChar
      apply hlast
      rw [List.getLast?_eq_getElem?, hlength, ← List.getElem_eq_getD]
      exact List.getElem?_eq_getElem h
  · decide

theorem trimmed_stringToName {s : List Char} (hs : IsNameText s) :
    trimmed (stringToName s) = s.map fun c => (charToSymbol c).toNat := by
  apply trimmed_eq (symbols_stringToName_of_fits hs.length_le hs.charSymbol_lt)
  intro ht
  have hne : s ≠ [] := fun h => ht (by rw [h]; rfl)
  have hlast := charOf_charToSymbol (hs.char _ (List.getLast_mem hne))
  rw [List.getLast_map]
  intro hzero
  rw [hzero] at hlast
  exact hs.getLast hne hlast.symm

theorem nameChars_stringToName {s : List Char} (hs : IsNameText s) :
    nameChars (stringToName s) = s := by
  rw [nameChars_eq, trimmed_stringToName hs, List.map_map]
  exact (List.map_congr_left fun c hc => charOf_charToSymbol (hs.char c hc)).trans (List.map_id' s)

theorem nameToString_stringToName {s : List Char} (hs : IsNameText s) (hne : s ≠ []) :
    nameToString (stringToName s) = String.ofList s := by
  have hchars := nameChars_stringToName hs
  have hzero : stringToName s ≠ 0 := fun h => by
    rw [h] at hchars
    exact hne hchars.symm
  rw [nameChars, if_neg hzero] at hchars
  rw [← String.ofList_toList (s := nameToString (stringToName s)), hchars]

/-! ### The suffix -/

/-- One pass of the loop of `name_suffix`: the place of the last dot so far, and that of the
last one with another character after it. -/
def scanChar (n : UInt64) (acc : UInt64 × UInt64) (i : ℕ) : UInt64 × UInt64 :=
  let remainingBits := (59 - 5 * i).toUInt64
  if (n >>> remainingBits) &&& 0x1f = 0 then (remainingBits, acc.2) else (acc.1, acc.1)

/-- What is cut out of a name behind the character at the place `remainingBits`. -/
def cutAfter (n remainingBits : UInt64) : UInt64 :=
  let mask := (1 <<< remainingBits) - 16
  let shift := 64 - remainingBits
  ((n &&& mask) <<< shift) + ((n &&& 0x0f) <<< (shift - 1))

theorem nameSuffix_eq (n : UInt64) :
    nameSuffix n =
      let scan := (List.range 12).foldl (scanChar n) (0, 0)
      let remainingBits := if n &&& 0x0f ≠ 0 then scan.1 else scan.2
      if remainingBits = 0 then n else cutAfter n remainingBits :=
  rfl

theorem scanChar_eq (n : UInt64) (acc : UInt64 × UInt64) {i : ℕ} (h : i < 12) :
    scanChar n acc i =
      if (symbols n)[i]? = some 0 then ((59 - 5 * i).toUInt64, acc.2) else (acc.1, acc.1) := by
  have hzero : (n >>> (59 - 5 * i).toUInt64) &&& 0x1f = 0 ↔ (symbols n)[i]? = some 0 := by
    rw [symbol_shift n h, Option.some_inj, ← UInt64.toNat_inj]
    rfl
  simp only [scanChar, hzero]

/-- Characters that are no dots. -/
theorem foldl_scanChar_of_ne {n : UInt64} {l : List ℕ} (acc : UInt64 × UInt64)
    (h : ∀ i ∈ l, i < 12 ∧ (symbols n)[i]? ≠ some 0) :
    l.foldl (scanChar n) acc = (acc.1, if l = [] then acc.2 else acc.1) := by
  induction l generalizing acc with
  | nil => rfl
  | cons i l ih =>
      obtain ⟨hi, hne⟩ := h i List.mem_cons_self
      rw [List.foldl_cons, scanChar_eq n acc hi, if_neg hne,
        ih _ fun j hj => h j (List.mem_cons_of_mem i hj)]
      simp

/-- Dots do not change the place of the last one that another character comes after. -/
theorem foldl_scanChar_of_eq {n : UInt64} {l : List ℕ} (acc : UInt64 × UInt64)
    (h : ∀ i ∈ l, i < 12 ∧ (symbols n)[i]? = some 0) :
    (l.foldl (scanChar n) acc).2 = acc.2 := by
  induction l generalizing acc with
  | nil => rfl
  | cons i l ih =>
      obtain ⟨hi, heq⟩ := h i List.mem_cons_self
      rw [List.foldl_cons, scanChar_eq n acc hi, if_pos heq,
        ih _ fun j hj => h j (List.mem_cons_of_mem i hj)]

theorem and_mask (m : ℕ) {r : ℕ} (h : 4 ≤ r) :
    m &&& (2 ^ r - 16) = m / 16 % 2 ^ (r - 4) * 16 := by
  apply Nat.eq_of_testBit_eq
  intro i
  have hmask : 2 ^ r - 16 = (2 ^ (r - 4) - 1) * 2 ^ 4 := by
    rw [Nat.sub_mul, ← pow_add, Nat.sub_add_cancel h]
    norm_num
  rw [hmask, Nat.testBit_and, Nat.testBit_mul_two_pow, show (16 : ℕ) = 2 ^ 4 from rfl,
    Nat.testBit_mul_two_pow, Nat.testBit_mod_two_pow, Nat.testBit_two_pow_sub_one,
    Nat.testBit_div_two_pow]
  by_cases hi : 4 ≤ i
  · simp [hi, Bool.and_comm]
  · simp [hi]

theorem toNat_place {r : ℕ} (hr : r < 60) : r.toUInt64.toNat = r := by
  simp
  omega

/-- The mask of the bits from the fifth one on that are below the place `r`. -/
theorem toNat_cutMask {r : ℕ} (h : 4 ≤ r) (hr : r < 60) :
    ((1 <<< r.toUInt64 : UInt64) - 16).toNat = 2 ^ r - 16 := by
  have hpow : 16 ≤ 2 ^ r := Nat.pow_le_pow_right (n := 2) (by decide) h
  have hword : 2 ^ r < 2 ^ 64 := Nat.pow_lt_pow_right (by decide) (by omega)
  have hone : (1 <<< r.toUInt64 : UInt64).toNat = 2 ^ r := by
    rw [UInt64.toNat_shiftLeft, toNat_place hr, Nat.mod_eq_of_lt (by omega : r < 64),
      Nat.shiftLeft_eq, UInt64.toNat_one, one_mul, Nat.mod_eq_of_lt hword]
  rw [UInt64.toNat_sub_of_le _ _ (UInt64.le_iff_toNat_le.mpr (hone ▸ hpow)), hone]
  rfl

/-- What the characters behind the place `r` are moved by, and what the last one is. -/
theorem toNat_cutShifts {r : ℕ} (hr : r < 60) :
    (64 - r.toUInt64).toNat = 64 - r ∧ (64 - r.toUInt64 - 1).toNat = 63 - r := by
  have hplace := toNat_place hr
  have hshift : (64 - r.toUInt64).toNat = 64 - r := by
    rw [UInt64.toNat_sub_of_le _ _ (UInt64.le_iff_toNat_le.mpr (by rw [hplace]; simp; omega)),
      hplace]
    rfl
  refine ⟨hshift, ?_⟩
  rw [UInt64.toNat_sub_of_le _ _ (UInt64.le_iff_toNat_le.mpr (by rw [hshift]; simp; omega)), hshift]
  simp
  omega

theorem toNat_cutAfter (n : UInt64) {r : ℕ} (h : 4 ≤ r) (hr : r < 60) :
    (cutAfter n r.toUInt64).toNat =
      (n.toNat / 16 % 2 ^ (r - 4) * 32 + n.toNat % 16) * 2 ^ (63 - r) := by
  obtain ⟨hshift, hshift'⟩ := toNat_cutShifts hr
  have hlast := toNat_low_four n
  generalize hm : n.toNat / 16 % 2 ^ (r - 4) = m
  generalize ht : n.toNat % 16 = t at hlast
  have hmlt : m < 2 ^ (r - 4) := hm ▸ Nat.mod_lt _ (Nat.two_pow_pos _)
  have htlt : t < 16 := ht ▸ Nat.mod_lt _ (by decide)
  have htotal : (m * 32 + t) * 2 ^ (63 - r) < 2 ^ 64 := by
    have hsum : m * 32 + t < 2 ^ (r - 4) * 2 ^ 5 := by omega
    calc (m * 32 + t) * 2 ^ (63 - r) < 2 ^ (r - 4) * 2 ^ 5 * 2 ^ (63 - r) :=
          Nat.mul_lt_mul_of_pos_right hsum (Nat.two_pow_pos _)
      _ = 2 ^ 64 := by
          rw [← pow_add, ← pow_add]
          congr 1
          omega
  have hdouble : 16 * 2 ^ (64 - r) = 32 * 2 ^ (63 - r) := by
    rw [show 64 - r = 63 - r + 1 by omega, pow_succ]
    ring
  have hrest : m * 16 * 2 ^ (64 - r) = m * 32 * 2 ^ (63 - r) := by
    rw [mul_assoc, hdouble, mul_assoc]
  rw [add_mul] at htotal ⊢
  rw [cutAfter, UInt64.toNat_add, UInt64.toNat_shiftLeft, UInt64.toNat_shiftLeft, UInt64.toNat_and,
    toNat_cutMask h hr, and_mask _ h, hm, hlast, hshift, hshift',
    Nat.mod_eq_of_lt (by omega : 64 - r < 64),
    Nat.mod_eq_of_lt (by omega : 63 - r < 64), Nat.shiftLeft_eq, Nat.shiftLeft_eq, hrest,
    Nat.mod_eq_of_lt (by omega : m * 32 * 2 ^ (63 - r) < 2 ^ 64),
    Nat.mod_eq_of_lt (by omega : t * 2 ^ (63 - r) < 2 ^ 64), Nat.mod_eq_of_lt htotal]

/-- The characters behind a place move to the front. -/
theorem symbols_cutAfter (n : UInt64) {p : ℕ} (hp : p < 12) :
    symbols (cutAfter n (59 - 5 * p).toUInt64) =
      (symbols n).drop (p + 1) ++ List.replicate (p + 1) 0 := by
  have hdrop : (symbols n).drop (p + 1) =
      digits 32 (11 - p) (n.toNat / 16) ++ [n.toNat % 16] := by
    have hsplit : 12 = p + 1 + (11 - p) := by omega
    rw [symbols, hsplit, digits_append, List.append_assoc, List.drop_left' (length_digits _ _)]
  have hvalue : value 32 (digits 32 (11 - p) (n.toNat / 16) ++ [n.toNat % 16]) =
      n.toNat / 16 % 2 ^ (55 - 5 * p) * 32 + n.toNat % 16 := by
    rw [value_concat, value_digits_mod (by decide), show (32 : ℕ) = 2 ^ 5 from rfl, ← pow_mul]
    congr 5
    omega
  have hpow : 2 ^ (63 - (59 - 5 * p)) = 32 ^ p * 16 := by
    rw [show (32 : ℕ) = 2 ^ 5 from rfl, show (16 : ℕ) = 2 ^ 4 from rfl, ← pow_mul, ← pow_add]
    congr 1
    omega
  rw [hdrop, List.replicate_succ', ← List.append_assoc]
  apply symbols_eq
  · simp
    omega
  · intro x hx
    simp only [List.mem_append, List.mem_singleton, List.mem_replicate] at hx
    rcases hx with (hx | rfl) | ⟨-, rfl⟩
    · exact digits_lt (by decide) hx
    · omega
    · decide
  · decide
  · rw [toNat_cutAfter n (by omega) (by omega), value_append_zeros, hvalue, hpow, add_zero,
      mul_assoc, show 59 - 5 * p - 4 = 55 - 5 * p by omega]

theorem and_low_four_eq_zero_iff (n : UInt64) : n &&& 0x0f = 0 ↔ (symbols n)[12]? = some 0 := by
  have hsymbol : (symbols n)[12]? = some (n.toNat % 16) := by
    rw [symbols, List.getElem?_append_right (by simp)]
    simp
  rw [hsymbol, Option.some_inj, ← toNat_low_four, ← UInt64.toNat_inj]
  rfl

/-- Where there are no more dots but those at the end, the scan comes out as the place of the
last dot before. -/
theorem scan_rest {n : UInt64} {s t : List ℕ} {k : ℕ}
    (h : symbols n = s ++ (t ++ List.replicate k 0)) (hs : s.length ≤ 12) (hdot : 0 ∉ t)
    (ht : t ≠ []) (acc : UInt64 × UInt64) :
    let scan := (List.range' s.length (12 - s.length)).foldl (scanChar n) acc
    (if n &&& 0x0f ≠ 0 then scan.1 else scan.2) = acc.1 := by
  have hlength := congrArg List.length h
  rw [length_symbols, List.length_append, List.length_append, List.length_replicate] at hlength
  have hpos := List.length_pos_iff.mpr ht
  have hne : ∀ i, s.length ≤ i → i < s.length + t.length → (symbols n)[i]? ≠ some 0 := by
    intro i hle hlt
    rw [h, List.getElem?_append_right hle, List.getElem?_append_left (by omega)]
    exact fun hi => hdot (List.mem_of_getElem? hi)
  have heq : ∀ i, s.length + t.length ≤ i → i < 13 → (symbols n)[i]? = some 0 := by
    intro i hle hlt
    rw [h, List.getElem?_append_right (by omega), List.getElem?_append_right (by omega),
      List.getElem?_replicate, if_pos (by omega)]
  dsimp only
  cases k with
  | zero =>
      have hlast : n &&& 0x0f ≠ 0 := fun hzero =>
        hne 12 hs (by omega) ((and_low_four_eq_zero_iff n).mp hzero)
      rw [if_pos hlast, foldl_scanChar_of_ne]
      intro i hi
      rw [List.mem_range'_1] at hi
      exact ⟨by omega, hne i hi.1 (by omega)⟩
  | succ k =>
      have hlast : n &&& 0x0f = 0 := (and_low_four_eq_zero_iff n).mpr (heq 12 (by omega) (by omega))
      have hsplit : List.range' s.length (12 - s.length) =
          List.range' s.length t.length ++ List.range' (s.length + t.length) k := by
        rw [List.range'_append_1]
        congr 1
        omega
      rw [if_neg (not_not.mpr hlast), hsplit, List.foldl_append, foldl_scanChar_of_eq,
        foldl_scanChar_of_ne, if_neg]
      · rw [List.range'_eq_nil_iff]
        omega
      · intro i hi
        rw [List.mem_range'_1] at hi
        exact ⟨by omega, hne i hi.1 hi.2⟩
      · intro i hi
        rw [List.mem_range'_1] at hi
        exact ⟨by omega, heq i hi.1 (by omega)⟩

theorem nameSuffix_of_no_dot {n : UInt64} (h : 0 ∉ trimmed n) : nameSuffix n = n := by
  by_cases ht : trimmed n = []
  · have hzero : n = 0 := trimmed_injective (ht.trans trimmed_zero.symm)
    rw [hzero]
    decide
  · have hsymbols : symbols n =
        [] ++ (trimmed n ++ List.replicate (13 - (trimmed n).length) 0) :=
      (symbols_eq_trimmed n).trans (List.nil_append _).symm
    have hscan := scan_rest hsymbols (by simp) h ht (0, 0)
    rw [nameSuffix_eq, List.range_eq_range']
    exact if_pos hscan

theorem nameSuffix_of_dot {n : UInt64} {p q : List ℕ} (h : trimmed n = p ++ 0 :: q)
    (hdot : 0 ∉ q) (hq : q ≠ []) :
    symbols (nameSuffix n) = q ++ List.replicate (13 - q.length) 0 := by
  have hsymbols := symbols_eq_trimmed n
  have hle := length_trimmed_le n
  have hpos := List.length_pos_iff.mpr hq
  rw [h] at hsymbols hle
  rw [List.length_append, List.length_cons] at hle hsymbols
  have hp : p.length < 12 := by omega
  have hfront : symbols n =
      (p ++ [0]) ++ (q ++ List.replicate (13 - (p.length + (q.length + 1))) 0) := by
    rw [hsymbols]
    simp
  have hsplit : List.range 12 = (List.range p.length ++ [p.length]) ++
      List.range' (p ++ [0]).length (12 - (p ++ [0]).length) := by
    have happend := List.range'_append_1 (s := 0) (m := p.length + 1) (n := 12 - (p.length + 1))
    rw [Nat.zero_add, Nat.add_sub_cancel' hp] at happend
    rw [← List.range_succ, List.range_eq_range', List.range_eq_range', List.length_append,
      List.length_singleton]
    exact happend.symm
  have hat : (symbols n)[p.length]? = some 0 := by
    rw [hsymbols]
    simp
  have hscan := scan_rest hfront (by simp; omega) hdot hq
    ((59 - 5 * p.length).toUInt64, ((List.range p.length).foldl (scanChar n) (0, 0)).2)
  have hplace : (59 - 5 * p.length).toUInt64 ≠ 0 := fun hzero => by
    have htoNat := congrArg UInt64.toNat hzero
    simp at htoNat
    omega
  have hcut : nameSuffix n = cutAfter n (59 - 5 * p.length).toUInt64 := by
    rw [nameSuffix_eq, hsplit, List.foldl_append, List.foldl_append]
    dsimp only [List.foldl_cons, List.foldl_nil] at hscan ⊢
    rw [scanChar_eq n _ hp, if_pos hat, hscan, if_neg hplace]
  have hdots : 13 - (p.length + (q.length + 1)) + (p.length + 1) = 13 - q.length := by omega
  have hdrop : (symbols n).drop (p.length + 1) =
      q ++ List.replicate (13 - (p.length + (q.length + 1))) 0 := by
    rw [hfront]
    exact List.drop_left' (by simp)
  rw [hcut, symbols_cutAfter n hp, hdrop, List.append_assoc, ← List.replicate_add, hdots]

/-- What a text has after its last dot; all of it where it has none. -/
def afterLastDot (s : List Char) : List Char := s.rtakeWhile (· ≠ '.')

theorem afterLastDot_of_not_mem {s : List Char} (h : '.' ∉ s) : afterLastDot s = s :=
  List.rtakeWhile_eq_self_iff.mpr fun c hc => by
    simpa using fun hdot : c = '.' => h (hdot ▸ hc)

theorem afterLastDot_of_mem {s t : List Char} (h : '.' ∉ t) : afterLastDot (s ++ '.' :: t) = t := by
  induction t using List.reverseRecOn with
  | nil => exact List.rtakeWhile_concat_neg _ _ _ (by simp)
  | append_singleton t c ih =>
      rw [List.mem_append, List.mem_singleton, not_or] at h
      rw [← List.cons_append, ← List.append_assoc, afterLastDot,
        List.rtakeWhile_concat_pos _ _ _ (by simpa using Ne.symm h.2)]
      exact congrArg (· ++ [c]) (ih h.1)

theorem dot_mem_map_charOf {l : List ℕ} (h : ∀ d ∈ l, d < 32) : '.' ∈ l.map charOf ↔ 0 ∈ l := by
  rw [List.mem_map]
  constructor
  · rintro ⟨d, hd, hdot⟩
    rwa [(charOf_eq_dot_iff d (h d hd)).mp hdot] at hd
  · exact fun h0 => ⟨0, h0, rfl⟩

theorem getLast?_trimmed (n : UInt64) : (trimmed n).getLast? ≠ some 0 := by
  intro h
  have hne : trimmed n ≠ [] := fun hnil => by
    rw [hnil] at h
    cases h
  rw [List.getLast?_eq_some_getLast hne, Option.some_inj] at h
  exact List.rdropWhile_last_not _ _ hne (decide_eq_true h)

/-- A name has no dot, or it has a last one with other characters after it. -/
theorem trimmed_cases (n : UInt64) :
    0 ∉ trimmed n ∨ ∃ p q, trimmed n = p ++ 0 :: q ∧ 0 ∉ q ∧ q ≠ [] := by
  refine or_iff_not_imp_left.mpr fun h => ?_
  obtain ⟨q, p, hrev, hq⟩ := List.eq_append_cons_of_mem (List.mem_reverse.mpr (not_not.mp h))
  have hsplit : trimmed n = p.reverse ++ 0 :: q.reverse := by
    rw [← List.reverse_reverse (trimmed n), hrev]
    simp
  refine ⟨p.reverse, q.reverse, hsplit, by simpa using hq, fun hnil => ?_⟩
  apply getLast?_trimmed n
  rw [hsplit, hnil, List.getLast?_concat]

theorem trimmed_nameSuffix {n : UInt64} {p q : List ℕ} (h : trimmed n = p ++ 0 :: q)
    (hdot : 0 ∉ q) (hq : q ≠ []) : trimmed (nameSuffix n) = q :=
  trimmed_eq (nameSuffix_of_dot h hdot hq) fun _ hzero => hdot (hzero ▸ List.getLast_mem hq)

theorem nameChars_nameSuffix (n : UInt64) :
    nameChars (nameSuffix n) = afterLastDot (nameChars n) := by
  have hlt : ∀ d ∈ trimmed n, d < 32 := fun d => trimmed_lt
  rw [nameChars_eq, nameChars_eq]
  rcases trimmed_cases n with hdot | ⟨p, q, hsplit, hdot, hq⟩
  · rw [nameSuffix_of_no_dot hdot, afterLastDot_of_not_mem]
    rwa [dot_mem_map_charOf hlt]
  · rw [trimmed_nameSuffix hsplit hdot hq, hsplit, List.map_append, List.map_cons]
    refine (afterLastDot_of_mem ?_).symm
    rwa [dot_mem_map_charOf fun d hd => hlt d (by rw [hsplit]; simp [hd])]

theorem nameSuffix_eq_stringToName (n : UInt64) :
    nameSuffix n = stringToName (afterLastDot (nameToString n).toList) := by
  by_cases hn : n = 0
  · subst hn
    decide
  · have hchars : nameChars n = (nameToString n).toList := if_neg hn
    rw [← hchars, ← nameChars_nameSuffix, stringToName_nameChars]

/-- Names and their texts: an integer is what its text is read as, a text that fits is what
its name is written as, and the suffix of a name is the part of the text after the last dot. -/
theorem name_text_roundTrip :
    (∀ n : UInt64, stringToName (nameToString n).toList = n) ∧
      (∀ s : List Char, IsNameText s → s ≠ [] → nameToString (stringToName s) = String.ofList s) ∧
      ∀ n : UInt64, nameSuffix n = stringToName (afterLastDot (nameToString n).toList) :=
  ⟨stringToName_nameToString, fun _ => nameToString_stringToName, nameSuffix_eq_stringToName⟩

end Xidata.Eosiolib
