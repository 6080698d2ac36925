import Mathlib.Tactic.Linarith
import Xidata.Eosiolib.PackRoundTrip
import Xidata.Library.Positional

/-!
Keys of a fixed size.  A key is kept in words of sixteen bytes, the most significant byte of a
word the first one of the key, so that keys compare like their bytes.
-/

namespace Xidata.Eosiolib

open Positional

/-- `uint128_t`. -/
abbrev Word := BitVec 128

/-- The bytes of a number, the most significant first. -/
def bigEndian (w n : ℕ) : Bytes := (digits 256 w n).map Nat.toUInt8

@[ext] structure FixedKey (size : ℕ) where
  data : List Word
  length_data : data.length = (size + 16 - 1) / 16
  deriving DecidableEq

namespace FixedKey

variable {size : ℕ}

def numWords (size : ℕ) : ℕ := (size + 16 - 1) / 16

def paddedBytes (size : ℕ) : ℕ := numWords size * 16 - size

/-- `fixed_key()`. -/
def zero (size : ℕ) : FixedKey size := ⟨List.replicate (numWords size) 0, List.length_replicate⟩

def set (key : FixedKey size) (itr : ℕ) (word : Word) : FixedKey size :=
  ⟨key.data.set itr word, by rw [List.length_set, key.length_data]⟩

/-! ### From words of another width -/

/-- What the loop of `set_from_word_sequence` keeps: the word of the key it is at, and how many
words of the sequence still fit into it. -/
structure Fill (size : ℕ) where
  key : FixedKey size
  itr : ℕ
  tempWord : Word
  subWordsLeft : ℕ

def setWord {w : ℕ} (s : Fill size) (word : BitVec (8 * w)) : Except String (Fill size) :=
  let subWordShift := 8 * w
  let numSubWords := 16 / w
  let tempWord := s.tempWord ||| word.setWidth 128
  if 1 < s.subWordsLeft then
    .ok { s with tempWord := tempWord <<< subWordShift, subWordsLeft := s.subWordsLeft - 1 }
  else if s.subWordsLeft = 1 then
    .ok ⟨s.key.set s.itr tempWord, s.itr + 1, 0, numSubWords⟩
  else .error "unexpected error in fixed_key constructor"

def setFromWordSequence {w : ℕ} (arr : List (BitVec (8 * w))) (key : FixedKey size) :
    Except String (FixedKey size) := do
  let numSubWords := 16 / w
  let s ← arr.foldlM setWord ⟨key, 0, 0, numSubWords⟩
  if s.subWordsLeft ≠ numSubWords then
    let tempWord :=
      if 1 < s.subWordsLeft then s.tempWord <<< (8 * (s.subWordsLeft - 1)) else s.tempWord
    pure (s.key.set s.itr tempWord)
  else pure s.key

/-- The width of the words divides that of a word of the key, and together they fit into it. -/
def makeFromWordSequence {w : ℕ} (firstWord : BitVec (8 * w)) (rest : List (BitVec (8 * w))) :
    Except String (FixedKey size) :=
  setFromWordSequence (firstWord :: rest) (zero size)

/-! ### To bytes -/

/-- The last `n` bytes of a word, taken off its end one by one. -/
def subWords : ℕ → Word → Bytes
  | 0, _ => []
  | n + 1, tempWord => subWords n (tempWord >>> 8) ++ [(tempWord &&& 0xff).toNat.toUInt8]

/-- The loop over the words of a key, the padding in the last one. -/
def extractWords (padded : ℕ) : List Word → Bytes
  | [] => []
  | [word] => subWords (16 - padded) word
  | word :: data => subWords 16 word ++ extractWords padded data

def extractAsByteArray (key : FixedKey size) : Bytes := extractWords (paddedBytes size) key.data

/-- `operator<`: that of arrays. -/
instance : LT (FixedKey size) := ⟨fun c1 c2 => c1.data < c2.data⟩

instance (c1 c2 : FixedKey size) : Decidable (c1 < c2) :=
  inferInstanceAs (Decidable (c1.data < c2.data))

/-! ### Bytes of words -/

@[simp] theorem length_bigEndian (w n : ℕ) : (bigEndian w n).length = w := by
  simp [bigEndian]

theorem bigEndian_zero (w : ℕ) : bigEndian w 0 = List.replicate w 0 := by
  rw [bigEndian, digits_zero, List.map_replicate]
  rfl

theorem bigEndian_injective {w m n : ℕ} (hm : m < 256 ^ w) (hn : n < 256 ^ w)
    (h : bigEndian w m = bigEndian w n) : m = n := by
  have hbyte : ∀ l : List ℕ, (∀ d ∈ l, d < 256) → (l.map Nat.toUInt8).map UInt8.toNat = l := by
    intro l hl
    rw [List.map_map]
    refine (List.map_congr_left fun d hd => ?_).trans (List.map_id' l)
    have hlt := hl d hd
    simp
    omega
  have hdigits : digits 256 w m = digits 256 w n := by
    rw [← hbyte _ fun d => digits_lt (by decide), ← hbyte (digits 256 w n) fun d => digits_lt (by decide)]
    exact congrArg _ h
  rw [← value_digits hm, ← value_digits hn, hdigits]

theorem subWords_eq (n : ℕ) (x : Word) : subWords n x = bigEndian n x.toNat := by
  induction n generalizing x with
  | zero => rfl
  | succ n ih =>
      have hrest : (x >>> 8).toNat = x.toNat / 256 := by
        rw [BitVec.toNat_ushiftRight]
        exact Nat.shiftRight_eq_div_pow _ 8
      have hlast : (x &&& 0xff).toNat = x.toNat % 256 := by
        rw [BitVec.toNat_and]
        exact Nat.and_two_pow_sub_one_eq_mod _ 8
      rw [subWords, ih, hrest, hlast, bigEndian, bigEndian, digits, List.map_append]
      rfl

/-- The bytes of a word of a key. -/
def bytes (x : Word) : Bytes := bigEndian 16 x.toNat

theorem extractWords_zero (l : List Word) : extractWords 0 l = l.flatMap bytes := by
  induction l with
  | nil => rfl
  | cons x l ih =>
      cases l with
      | nil => simp [extractWords, subWords_eq, bytes]
      | cons y l =>
          rw [extractWords, ih, subWords_eq, List.flatMap_cons (x := x)]
          · rfl
          · exact fun h => by cases h

theorem extractAsByteArray_eq (key : FixedKey size) (hsize : 16 ∣ size) :
    key.extractAsByteArray = key.data.flatMap bytes := by
  have hpadded : paddedBytes size = 0 := by
    rw [paddedBytes, numWords]
    omega
  rw [extractAsByteArray, hpadded, extractWords_zero]

theorem map_toNat_lt {w : ℕ} {l : List (BitVec (8 * w))} {d : ℕ} (h : d ∈ l.map BitVec.toNat) :
    d < 256 ^ w := by
  obtain ⟨y, -, rfl⟩ := List.mem_map.mp h
  have hpow : 256 ^ w = 2 ^ (8 * w) := by rw [pow_mul]; rfl
  exact hpow ▸ y.isLt

/-- The bytes of words of any width, one behind the other. -/
def bytesOf {w : ℕ} (l : List (BitVec (8 * w))) : Bytes := l.flatMap fun y => bigEndian w y.toNat

theorem length_bytesOf {w : ℕ} (l : List (BitVec (8 * w))) : (bytesOf l).length = l.length * w := by
  simp [bytesOf, List.length_flatMap]

/-- Words one behind the other, and free bytes behind them. -/
theorem bytesOf_append_zeros {w : ℕ} (l : List (BitVec (8 * w))) (k : ℕ) :
    bytesOf l ++ List.replicate k 0 =
      bigEndian (l.length * w + k) (value (256 ^ w) (l.map BitVec.toNat) * 256 ^ k) := by
  have hdigits := digits_value_pow fun d => map_toNat_lt (l := l)
  rw [List.length_map] at hdigits
  rw [bigEndian, digits_mul_pow (by decide), hdigits, List.map_append, List.map_replicate,
    List.map_flatMap, List.flatMap_map]
  rfl

/-- Words that fill up a word of the key. -/
theorem bytes_eq_bytesOf {w : ℕ} {l : List (BitVec (8 * w))} {x : Word} (hl : l.length * w = 16)
    (hx : x.toNat = value (256 ^ w) (l.map BitVec.toNat)) :
    bytes x = bytesOf l := by
  have hzeros := bytesOf_append_zeros l 0
  rw [List.replicate_zero, List.append_nil, hl, pow_zero, mul_one] at hzeros
  rw [bytes, hx, hzeros]

/-! ### The loop over the words -/

/-- What the loop has done: the words of `done` are in the key, those of `rest` in the word it is
at, and one more would fit behind them. -/
structure Filled {w : ℕ} (done rest : List (BitVec (8 * w))) (s : Fill size) : Prop where
  left : rest.length + s.subWordsLeft = 16 / w
  pos : 0 < s.subWordsLeft
  temp : s.tempWord.toNat = value (256 ^ w) (rest.map BitVec.toNat) * 256 ^ w
  data : ∃ full : List Word, full.length = s.itr ∧
    s.key.data = full ++ List.replicate (numWords size - s.itr) 0 ∧
    full.flatMap bytes = bytesOf done

theorem Filled.itr_eq {w : ℕ} {done rest : List (BitVec (8 * w))} {s : Fill size}
    (h : Filled done rest s) : s.itr * 16 = done.length * w := by
  obtain ⟨full, hlength, -, hbytes⟩ := h.data
  have hcount := congrArg List.length hbytes
  simpa [List.length_flatMap, bytes, hlength, length_bytesOf] using hcount

/-- The word that is stored next. -/
theorem Filled.set {w : ℕ} {done rest : List (BitVec (8 * w))} {s : Fill size}
    (h : Filled done rest s) (hroom : s.itr < numWords size) (x : Word) :
    ∃ full : List Word, full.length = s.itr ∧
      (s.key.set s.itr x).data = full ++ x :: List.replicate (numWords size - (s.itr + 1)) 0 ∧
      full.flatMap bytes = bytesOf done := by
  obtain ⟨full, hlength, hdata, hbytes⟩ := h.data
  refine ⟨full, hlength, ?_, hbytes⟩
  have hzeros : List.replicate (numWords size - s.itr) (0 : Word) =
      0 :: List.replicate (numWords size - (s.itr + 1)) 0 := by
    rw [← List.replicate_succ]
    congr 1
    omega
  have hset : (s.key.set s.itr x).data = s.key.data.set s.itr x := rfl
  rw [hset, hdata, hzeros, ← hlength, List.set_append_right _ _ le_rfl, Nat.sub_self]
  rfl

theorem toNat_push {w : ℕ} {x : Word} (y : BitVec (8 * w)) {m : ℕ} (hx : x.toNat = m * 256 ^ w)
    (hw : w ≤ 16) : (x ||| y.setWidth 128).toNat = m * 256 ^ w + y.toNat := by
  have hpow : 256 ^ w = 2 ^ (8 * w) := by rw [pow_mul]; rfl
  have hy := y.isLt
  have hfits : y.toNat < 2 ^ 128 := hy.trans_le (Nat.pow_le_pow_right (by decide) (by omega))
  rw [BitVec.toNat_or, BitVec.toNat_setWidth, Nat.mod_eq_of_lt hfits, hx, hpow, ← Nat.shiftLeft_eq,
    ← Nat.shiftLeft_add_eq_or_of_lt hy]

theorem mul_pow_lt {m n : ℕ} (hm : m < 256 ^ n) (j : ℕ) : m * 256 ^ j < 256 ^ (n + j) := by
  rw [pow_add]
  exact Nat.mul_lt_mul_of_pos_right hm (Nat.pow_pos (by decide))

/-- What stands in a part of a word can be moved up by as many bytes as are free. -/
theorem toNat_shiftLeft_bytes {x : Word} {m j n : ℕ} (hx : x.toNat = m) (hm : m < 256 ^ n)
    (hfits : n + j ≤ 16) : (x <<< (8 * j)).toNat = m * 256 ^ j := by
  have hpow : 2 ^ (8 * j) = 256 ^ j := by rw [pow_mul]; rfl
  have hlt : m * 256 ^ j < 2 ^ 128 :=
    (mul_pow_lt hm j).trans_le (Nat.pow_le_pow_right (by decide) hfits)
  rw [BitVec.toNat_shiftLeft, hx, Nat.shiftLeft_eq, hpow, Nat.mod_eq_of_lt hlt]

theorem value_words_lt {w : ℕ} (l : List (BitVec (8 * w))) :
    value (256 ^ w) (l.map BitVec.toNat) < 256 ^ (w * l.length) := by
  have hlt := value_lt fun d => map_toNat_lt (l := l)
  rwa [List.length_map, ← pow_mul] at hlt

theorem value_words_concat {w : ℕ} (l : List (BitVec (8 * w))) (x : BitVec (8 * w)) :
    value (256 ^ w) ((l ++ [x]).map BitVec.toNat) =
      value (256 ^ w) (l.map BitVec.toNat) * 256 ^ w + x.toNat := by
  rw [List.map_append]
  exact value_concat _ _

/-- The word is put behind the others, which are moved up. -/
theorem Filled.more {w : ℕ} (hw : w ∣ 16) {done rest : List (BitVec (8 * w))} {s : Fill size}
    (h : Filled done rest s) (hmore : 1 < s.subWordsLeft) {x : BitVec (8 * w)} {word : Word}
    (hword : word.toNat = value (256 ^ w) ((rest ++ [x]).map BitVec.toNat)) :
    Filled done (rest ++ [x])
      { s with tempWord := word <<< (8 * w), subWordsLeft := s.subWordsLeft - 1 } := by
  have hwidth : 16 / w * w = 16 := Nat.div_mul_cancel hw
  have hleft := h.left
  have hfits : w * (rest ++ [x]).length + w ≤ 16 := by
    rw [List.length_append, List.length_singleton, ← hwidth, ← hleft]
    nlinarith
  refine ⟨?_, ?_, toNat_shiftLeft_bytes hword (value_words_lt _) hfits, h.data⟩
  · rw [List.length_append, List.length_singleton]
    dsimp only
    omega
  · dsimp only
    omega

/-- The word is the last one that fits, and the word of the key is stored. -/
theorem Filled.full {w : ℕ} (hw : w ∣ 16) {done rest : List (BitVec (8 * w))} {s : Fill size}
    (h : Filled done rest s) (hone : s.subWordsLeft = 1)
    (hroom : (done.length + rest.length + 1) * w ≤ size) {x : BitVec (8 * w)} {word : Word}
    (hword : word.toNat = value (256 ^ w) ((rest ++ [x]).map BitVec.toNat)) :
    Filled (done ++ (rest ++ [x])) [] ⟨s.key.set s.itr word, s.itr + 1, 0, 16 / w⟩ := by
  have hwidth : 16 / w * w = 16 := Nat.div_mul_cancel hw
  have hwpos : 0 < w := Nat.pos_of_dvd_of_pos hw (by decide)
  have hfull : (rest ++ [x]).length * w = 16 := by
    rw [List.length_append, List.length_singleton, ← hone, h.left, hwidth]
  have hitr : s.itr < numWords size := by
    have heq := h.itr_eq
    rw [List.length_append, List.length_singleton] at hfull
    rw [numWords]
    have hsum : done.length * w + 16 ≤ size := by
      rw [← hfull]
      nlinarith
    omega
  obtain ⟨full, hlength, hdata, hbytes⟩ := h.set hitr word
  refine ⟨by simp, Nat.div_pos (Nat.le_of_dvd (by decide) hw) hwpos, by simp [value], ?_⟩
  refine ⟨full ++ [word], by simp [hlength], ?_, ?_⟩
  · rw [hdata]
    simp
  · rw [List.flatMap_append, hbytes, List.flatMap_singleton, bytes_eq_bytesOf hfull hword]
    exact List.flatMap_append.symm

/-- One pass of the loop. -/
theorem setWord_spec {w : ℕ} (hw : w ∣ 16) {done rest : List (BitVec (8 * w))} {s : Fill size}
    (h : Filled done rest s) (hroom : (done.length + rest.length + 1) * w ≤ size)
    (x : BitVec (8 * w)) :
    ∃ s', setWord s x = .ok s' ∧
      ∃ done' rest', done' ++ rest' = done ++ rest ++ [x] ∧ Filled done' rest' s' := by
  have hpush := toNat_push x h.temp (Nat.le_of_dvd (by decide) hw)
  rw [← value_words_concat] at hpush
  unfold setWord
  dsimp only
  split
  · rename_i hmore
    exact ⟨_, rfl, done, rest ++ [x], (List.append_assoc ..).symm, h.more hw hmore hpush⟩
  · rename_i hlast
    have hpos := h.pos
    have hone : s.subWordsLeft = 1 := by omega
    rw [if_pos hone]
    exact ⟨_, rfl, done ++ (rest ++ [x]), [], by simp, h.full hw hone hroom hpush⟩

/-- The whole loop. -/
theorem foldlM_setWord {w : ℕ} (hw : w ∣ 16) {l done rest : List (BitVec (8 * w))} {s : Fill size}
    (h : Filled done rest s) (hroom : (done.length + rest.length + l.length) * w ≤ size) :
    ∃ s', l.foldlM setWord s = .ok s' ∧
      ∃ done' rest', done' ++ rest' = done ++ rest ++ l ∧ Filled done' rest' s' := by
  induction l generalizing done rest s with
  | nil => exact ⟨s, rfl, done, rest, by simp, h⟩
  | cons x l ih =>
      rw [List.length_cons] at hroom
      obtain ⟨s', hs', done', rest', hsplit, h'⟩ := setWord_spec hw h (by nlinarith) x
      have hlength := congrArg List.length hsplit
      simp only [List.length_append, List.length_singleton] at hlength
      obtain ⟨s'', hs'', done'', rest'', hsplit', h''⟩ := ih h' (by rw [hlength]; nlinarith)
      refine ⟨s'', ?_, done'', rest'', ?_, h''⟩
      · rw [List.foldlM_cons, hs', Rollback.ok_bind, hs'']
      · rw [hsplit', hsplit]
        simp

/-! ### The layout of a key -/

theorem flatMap_bytes_zeros (n : ℕ) :
    (List.replicate n (0 : Word)).flatMap bytes = List.replicate (n * 16) 0 := by
  have hzero : bytes 0 = List.replicate 16 0 := bigEndian_zero 16
  induction n with
  | zero => rfl
  | succ n ih => rw [List.replicate_succ, List.flatMap_cons, ih, hzero, ← List.replicate_add]; congr 1; ring

/-- The words of the sequence behind the last word of the key that they fill up. -/
def lastWords {w : ℕ} (l : List (BitVec (8 * w))) : List (BitVec (8 * w)) :=
  l.drop (l.length / (16 / w) * (16 / w))

/-- An incomplete last word, shifted up by one byte for each word that is missing. -/
theorem toNat_lastWord {w : ℕ} (hw : w ∣ 16) {done rest : List (BitVec (8 * w))} {s : Fill size}
    (h : Filled done rest s) :
    (if 1 < s.subWordsLeft then s.tempWord <<< (8 * (s.subWordsLeft - 1)) else s.tempWord).toNat =
      value (256 ^ w) (rest.map BitVec.toNat) * 256 ^ (w + (s.subWordsLeft - 1)) := by
  have hwidth : 16 / w * w = 16 := Nat.div_mul_cancel hw
  have hwpos : 0 < w := Nat.pos_of_dvd_of_pos hw (by decide)
  have hpos := h.pos
  split
  · have hlt := mul_pow_lt (value_words_lt rest) w
    have hfits : w * rest.length + w + (s.subWordsLeft - 1) ≤ 16 := by
      rw [← hwidth, ← h.left]
      obtain ⟨left, hleft⟩ : ∃ left, s.subWordsLeft = left + 1 := ⟨s.subWordsLeft - 1, by omega⟩
      rw [hleft, Nat.add_sub_cancel]
      nlinarith
    rw [toNat_shiftLeft_bytes h.temp hlt hfits, mul_assoc, ← pow_add]
  · rw [show s.subWordsLeft - 1 = 0 by omega, add_zero, h.temp]

/-- What is made of a sequence that fits: the words that fill up words of the key, and the rest
in the next one. -/
theorem setFromWordSequence_spec {w : ℕ} (hw : w ∣ 16) (l : List (BitVec (8 * w)))
    (hfits : l.length * w ≤ size) :
    ∃ (done rest : List (BitVec (8 * w))) (s : Fill size) (key : FixedKey size),
      l = done ++ rest ∧ Filled done rest s ∧ setFromWordSequence l (zero size) = .ok key ∧
      key = if rest = [] then s.key else s.key.set s.itr
        (if 1 < s.subWordsLeft then s.tempWord <<< (8 * (s.subWordsLeft - 1)) else s.tempWord) := by
  have hstart : Filled (w := w) [] [] ⟨zero size, 0, 0, 16 / w⟩ :=
    ⟨by simp, Nat.div_pos (Nat.le_of_dvd (by decide) hw) (Nat.pos_of_dvd_of_pos hw (by decide)),
      by simp [value], [], rfl, rfl, rfl⟩
  obtain ⟨s, hs, done, rest, hsplit, hfilled⟩ := foldlM_setWord hw (l := l) hstart (by simpa using hfits)
  have hrest : s.subWordsLeft ≠ 16 / w ↔ rest ≠ [] := by
    have hleft := hfilled.left
    rw [← List.length_pos_iff]
    omega
  refine ⟨done, rest, s, _, by simpa using hsplit.symm, hfilled, ?_, rfl⟩
  rw [setFromWordSequence, hs, Rollback.ok_bind]
  dsimp only
  by_cases hnil : rest = []
  · rw [if_neg (fun h => hrest.mp h hnil), if_pos hnil]
    rfl
  · rw [if_pos (hrest.mpr hnil), if_neg hnil]
    rfl

/-- The words that are left over are the last ones. -/
theorem lastWords_eq {w : ℕ} (hw : w ∣ 16) {done rest : List (BitVec (8 * w))} {s : Fill size}
    (h : Filled done rest s) : lastWords (done ++ rest) = rest ∧
      (done ++ rest).length % (16 / w) = rest.length := by
  have hwidth : 16 / w * w = 16 := Nat.div_mul_cancel hw
  have hwpos : 0 < w := Nat.pos_of_dvd_of_pos hw (by decide)
  have hdone : done.length = s.itr * (16 / w) := by
    have heq := h.itr_eq
    apply Nat.eq_of_mul_eq_mul_right hwpos
    rw [← heq, mul_assoc, hwidth]
  have hlt : rest.length < 16 / w := by
    have hleft := h.left
    have hpos := h.pos
    omega
  have hlength : (done ++ rest).length = rest.length + 16 / w * s.itr := by
    rw [List.length_append, hdone]
    ring
  constructor
  · rw [lastWords, hlength, Nat.add_mul_div_left _ _ (by omega), Nat.div_eq_of_lt hlt, Nat.zero_add,
      ← hdone, List.drop_left]
  · rw [hlength, Nat.add_mul_mod_self_left, Nat.mod_eq_of_lt hlt]

/-- A shift by one byte for each word that is missing is the one by all bytes of these words. -/
theorem shift_eq_iff {m w left : ℕ} :
    m * 256 ^ (w + left) = m * 256 ^ (w + left * w) ↔ w = 1 ∨ left = 0 ∨ m = 0 := by
  have hleft : w + left = w + left * w ↔ w = 1 ∨ left = 0 := by
    constructor
    · intro heq
      have hmul : left * w = left * 1 := by omega
      exact mul_eq_mul_left_iff.mp hmul
    · rintro (rfl | rfl)
      · rw [mul_one]
      · rw [zero_mul]
  rw [mul_eq_mul_left_iff, Nat.pow_right_inj (by decide), hleft, or_assoc]

/-- An incomplete last word is in its place if there is nothing to shift, if a byte is a word,
if one word is missing, or if the words in it are zero. -/
theorem bytes_lastWord_iff {w : ℕ} (hw : w ∣ 16) {done rest : List (BitVec (8 * w))}
    {s : Fill size} (h : Filled done rest s) {x : Word}
    (hx : x.toNat = value (256 ^ w) (rest.map BitVec.toNat) * 256 ^ (w + (s.subWordsLeft - 1))) :
    bytes x = bytesOf rest ++ List.replicate (16 - rest.length * w) 0 ↔
      w = 1 ∨ rest.length + 1 = 16 / w ∨ ∀ y ∈ rest, y = 0 := by
  have hwidth : 16 / w * w = 16 := Nat.div_mul_cancel hw
  have hwpos : 0 < w := Nat.pos_of_dvd_of_pos hw (by decide)
  have hleft := h.left
  obtain ⟨left, hone⟩ : ∃ left, s.subWordsLeft = left + 1 := ⟨s.subWordsLeft - 1, by
    have hpos := h.pos
    omega⟩
  rw [hone] at hleft
  rw [hone, Nat.add_sub_cancel] at hx
  have hfree : 16 - rest.length * w = w + left * w := by
    rw [← hwidth, ← hleft, add_mul, add_mul, one_mul]
    omega
  have hsum : rest.length * w + (w + left * w) = 16 := by omega
  have hplace := bytesOf_append_zeros rest (w + left * w)
  have hlt := mul_pow_lt (value_words_lt rest) (w + left * w)
  rw [mul_comm w rest.length, hsum] at hlt
  rw [hsum] at hplace
  rw [hfree, hplace]
  generalize hm : value (256 ^ w) (rest.map BitVec.toNat) = m at hx hlt
  have hzero : (∀ y ∈ rest, y = 0) ↔ m = 0 := by
    rw [← hm, value_eq_zero_iff (Nat.pow_pos (by decide)), List.forall_mem_map]
    exact forall₂_congr fun y _ => by rw [← BitVec.toNat_inj]; rfl
  have hcount : rest.length + 1 = 16 / w ↔ left = 0 := by omega
  have hnumber : bytes x = bigEndian 16 (m * 256 ^ (w + left * w)) ↔
      x.toNat = m * 256 ^ (w + left * w) :=
    ⟨fun heq => bigEndian_injective x.isLt hlt heq, fun heq => by rw [bytes, heq]⟩
  rw [hzero, hcount, hnumber, hx, shift_eq_iff]

/-- A key holds the words of a sequence in order where its last word is in place. -/
theorem layout_iff {w : ℕ} (hsize : 16 ∣ size) (hw : w ∣ 16) (l : List (BitVec (8 * w)))
    (hfits : l.length * w ≤ size) :
    (∃ key, setFromWordSequence l (zero size) = .ok key ∧ key.extractAsByteArray =
        bytesOf l ++ List.replicate (size - l.length * w) 0) ↔
      w = 1 ∨ l.length % (16 / w) + 1 = 16 / w ∨ ∀ x ∈ lastWords l, x = 0 := by
  obtain ⟨done, rest, s, key, rfl, hfilled, hkey, hdef⟩ := setFromWordSequence_spec hw l hfits
  obtain ⟨hlast, hmod⟩ := lastWords_eq hw hfilled
  have hitr := hfilled.itr_eq
  have hwords : numWords size * 16 = size := by
    rw [numWords]
    omega
  rw [List.length_append, add_mul] at hfits
  rw [hlast, hmod, ← bytes_lastWord_iff hw hfilled (toNat_lastWord hw hfilled)]
  simp only [hkey, Except.ok.injEq, exists_eq_left', extractAsByteArray_eq _ hsize]
  have hsplit : bytesOf (done ++ rest) = bytesOf done ++ bytesOf rest := List.flatMap_append
  by_cases hnil : rest = []
  · subst hnil
    obtain ⟨full, hlength, hdata, hbytes⟩ := hfilled.data
    rw [if_pos rfl] at hdef
    rw [List.length_nil, Nat.zero_mul, Nat.add_zero] at hfits
    have hzeros : (numWords size - s.itr) * 16 = size - done.length * w := by
      rw [Nat.sub_mul, hwords, hitr]
    have hbytes : key.data.flatMap bytes =
        bytesOf (done ++ []) ++ List.replicate (size - (done ++ []).length * w) 0 := by
      rw [hdef, hdata, List.flatMap_append, hbytes, flatMap_bytes_zeros, hzeros, List.append_nil]
    exact iff_of_true hbytes
      ((bytes_lastWord_iff hw hfilled (toNat_lastWord hw hfilled)).mpr (.inr (.inr (by simp))))
  · rw [if_neg hnil] at hdef
    have hpos : 0 < rest.length * w :=
      Nat.mul_pos (List.length_pos_iff.mpr hnil) (Nat.pos_of_dvd_of_pos hw (by decide))
    obtain ⟨full, hlength, hdata, hbytes⟩ := hfilled.set (by omega)
      (if 1 < s.subWordsLeft then s.tempWord <<< (8 * (s.subWordsLeft - 1)) else s.tempWord)
    have hrest : rest.length * w ≤ 16 := by
      rw [← Nat.div_mul_cancel hw, ← hfilled.left]
      exact Nat.mul_le_mul_right w (Nat.le_add_right _ _)
    have hzeros : size - (done ++ rest).length * w =
        16 - rest.length * w + (numWords size - (s.itr + 1)) * 16 := by
      rw [List.length_append, add_mul]
      omega
    rw [hdef, hdata, List.flatMap_append, List.flatMap_cons, hbytes, flatMap_bytes_zeros, hsplit,
      hzeros, List.replicate_add, List.append_assoc, List.append_cancel_left_eq, ← List.append_assoc,
      List.append_cancel_right_eq]

/-! ### Order -/

theorem map_toUInt8_lt {l m : List ℕ} (hl : ∀ d ∈ l, d < 256) (hm : ∀ d ∈ m, d < 256)
    (h : l < m) : l.map Nat.toUInt8 < m.map Nat.toUInt8 := by
  induction l generalizing m with
  | nil =>
      cases m with
      | nil => exact absurd h (lt_irrefl _)
      | cons y m => exact List.nil_lt_cons _ _
  | cons x l ih =>
      cases m with
      | nil => exact absurd h (List.not_lt_nil _)
      | cons y m =>
          rw [List.forall_mem_cons] at hl hm
          rw [List.cons_lt_cons_iff] at h
          rw [List.map_cons, List.map_cons, List.cons_lt_cons_iff]
          rcases h with hlt | ⟨rfl, htail⟩
          · refine .inl (UInt8.lt_iff_toNat_lt.mpr ?_)
            simp
            omega
          · exact .inr ⟨rfl, ih hl.2 hm.2 htail⟩

theorem bytes_lt {x y : Word} (h : x < y) : bytes x < bytes y :=
  map_toUInt8_lt (fun d => digits_lt (by decide)) (fun d => digits_lt (by decide))
    (digits_lt_digits (BitVec.lt_def.mp h) y.isLt)

@[reducible] def wordLinearOrder : LinearOrder Word where
  le_refl := BitVec.le_refl
  le_trans _ _ _ := BitVec.le_trans
  le_antisymm _ _ := BitVec.le_antisymm
  le_total := BitVec.le_total
  lt_iff_le_not_ge a b := by
    rw [BitVec.not_le]
    exact ⟨fun h => ⟨BitVec.le_of_lt h, h⟩, And.right⟩
  toDecidableLE := inferInstance

@[reducible] def byteLinearOrder : LinearOrder UInt8 :=
  LinearOrder.lift' UInt8.toNat fun _ _ => UInt8.toNat_inj.mp

theorem lt_iff_bytes_lt (hsize : 16 ∣ size) (c1 c2 : FixedKey size) :
    c1 < c2 ↔ c1.extractAsByteArray < c2.extractAsByteArray := by
  let := wordLinearOrder
  let := byteLinearOrder
  have hmono := PrefixSearch.flatMap_strictMono (f := bytes) (fun x y => bytes_lt) (n := 15)
    fun x => length_bigEndian 16 _
  rw [extractAsByteArray_eq _ hsize, extractAsByteArray_eq _ hsize]
  exact (hmono.lt_iff_lt (a := c1.data) (b := c2.data)).symm

/-- A key made of words holds their bytes in order, and keys compare like their bytes: this is
so where the last word of the key is complete but for one of them, where they are bytes, or where
those in the last word are zero. -/
theorem makeFromWordSequence_layout_iff {w : ℕ} (hsize : 16 ∣ size) (hw : w ∣ 16)
    (firstWord : BitVec (8 * w)) (rest : List (BitVec (8 * w)))
    (hfits : (firstWord :: rest).length * w ≤ size) :
    ((∃ key : FixedKey size, makeFromWordSequence firstWord rest = .ok key ∧
          key.extractAsByteArray = bytesOf (firstWord :: rest) ++
            List.replicate (size - (firstWord :: rest).length * w) 0) ∧
        ∀ c1 c2 : FixedKey size, c1 < c2 ↔ c1.extractAsByteArray < c2.extractAsByteArray) ↔
      w = 1 ∨ (firstWord :: rest).length % (16 / w) + 1 = 16 / w ∨
        ∀ x ∈ lastWords (firstWord :: rest), x = 0 := by
  rw [and_iff_left (lt_iff_bytes_lt hsize)]
  exact layout_iff hsize hw (firstWord :: rest) hfits

/-- Two words of eight bytes. -/
theorem makeFromWordSequence_layout_two :
    ∃ key : FixedKey 32, makeFromWordSequence (w := 8) 1 [2] = .ok key ∧
      key.extractAsByteArray = bytesOf (w := 8) [1, 2] ++ List.replicate 16 0 :=
  ((makeFromWordSequence_layout_iff (w := 8) (by decide) (by decide) 1 [2] (by decide)).mpr
    (.inr (.inr (by simp [lastWords])))).1

/-- A single word of two bytes lands in the middle of the key. -/
theorem makeFromWordSequence_shifted :
    ¬ ∃ key : FixedKey 16, makeFromWordSequence (w := 2) 1 [] = .ok key ∧
      key.extractAsByteArray = bytesOf (w := 2) [1] ++ List.replicate 14 0 :=
  (layout_iff (w := 2) (by decide) (by decide) [1] (by decide)).not.mpr (by simp [lastWords])

end FixedKey

/-! ### Keys of 256 bits in a stream -/

abbrev Key256 := FixedKey 32

namespace Key256

/-- The memory of a key: its words one after the other, each from the least significant byte. -/
def memory (d : Key256) : Bytes := d.data.flatMap fun x => ByteCode.littleEndian 16 x.toNat

/-- The `n` words that stand in a piece of memory. -/
def wordsOf : ℕ → Bytes → List Word
  | 0, _ => []
  | n + 1, memory =>
      BitVec.ofNat 128 (ByteCode.ofLittleEndian (memory.take 16)) :: wordsOf n (memory.drop 16)

theorem length_wordsOf (n : ℕ) (memory : Bytes) : (wordsOf n memory).length = n := by
  induction n generalizing memory with
  | zero => rfl
  | succ n ih => rw [wordsOf, List.length_cons, ih]

def ofMemory (memory : Bytes) : Key256 := ⟨wordsOf 2 memory, length_wordsOf 2 memory⟩

/-- `operator<<`: as many bytes as `size()` of the key says, which counts its words. -/
def put {S : Type} [OutStream S] (ds : S) (d : Key256) : Result S :=
  OutStream.write ds (d.memory.take d.data.length)

/-- `operator>>` into a key that is there. -/
def get (d : Key256) (ds : InStream) : Result (Key256 × InStream) := do
  let r ← ds.read d.data.length
  pure (ofMemory (r.1.toList ++ d.memory.drop d.data.length), r.2)

/-- `unpack` reads into a key made by the default constructor. -/
def unpack (buffer : Bytes) : Result Key256 := unpackWith (get (FixedKey.zero 32)) buffer

theorem data_eq (k : Key256) : k.data = [k.data.getD 0 0, k.data.getD 1 0] := by
  have hlength : k.data.length = 2 := k.length_data
  match hdata : k.data, hlength with
  | [x, y], _ => rfl

/-- Only the lowest two bytes of the first word are written. -/
theorem pack_eq (k : Key256) :
    packWith put k = .ok (ByteCode.littleEndian 2 (k.data.getD 0 0).toNat) := by
  have hbytes : k.memory.take k.data.length =
      ByteCode.littleEndian 2 (k.data.getD 0 0).toNat := by
    rw [memory, data_eq k]
    rfl
  have hput : ∀ {S : Type} [OutStream S] (ds : S), put ds k =
      writeAll ds [ByteCode.littleEndian 2 (k.data.getD 0 0).toNat] := fun ds => by
    rw [put, hbytes, writeAll_singleton]
  rw [packWith_eq hput, List.flatten_singleton]

theorem unpack_two (x y : UInt8) :
    unpack [x, y] = .ok ⟨[BitVec.ofNat 128 (x.toNat + 256 * y.toNat), 0], rfl⟩ := by
  have hzeros : ByteCode.ofLittleEndian (List.replicate 14 0) = 0 := by decide
  have hrest : ByteCode.ofLittleEndian (List.replicate 16 0) = 0 := by decide
  have hread : unpack [x, y] = .ok (ofMemory (x :: y :: List.replicate 30 0)) := rfl
  have hfirst : ByteCode.ofLittleEndian (x :: y :: List.replicate 14 0) =
      x.toNat + 256 * (y.toNat + 256 * ByteCode.ofLittleEndian (List.replicate 14 0)) := rfl
  have hwords : (ofMemory (x :: y :: List.replicate 30 0)).data =
      [BitVec.ofNat 128 (ByteCode.ofLittleEndian (x :: y :: List.replicate 14 0)),
        BitVec.ofNat 128 (ByteCode.ofLittleEndian (List.replicate 16 0))] := rfl
  rw [hread, Except.ok.injEq, FixedKey.ext_iff, hwords, hfirst, hzeros, hrest]
  rfl

theorem unpack_pack_iff (k : Key256) :
    packWith put k >>= unpack = .ok k ↔
      (k.data.getD 0 0).toNat < 2 ^ 16 ∧ k.data.getD 1 0 = 0 := by
  have htwo : ∀ n : ℕ, ByteCode.littleEndian 2 n = [n.toUInt8, (n / 256).toUInt8] := fun n => rfl
  have hbytes : ∀ n : ℕ, n.toUInt8.toNat + 256 * (n / 256).toUInt8.toNat = n % 2 ^ 16 := fun n => by
    simp
    omega
  rw [pack_eq, Rollback.ok_bind, htwo, unpack_two, hbytes, Except.ok.injEq, FixedKey.ext_iff]
  generalize hx : k.data.getD 0 0 = x
  generalize hy : k.data.getD 1 0 = y
  have hdata := data_eq k
  rw [hx, hy] at hdata
  rw [hdata, List.cons.injEq, List.cons.injEq, eq_comm (a := (0 : Word))]
  have hlow : BitVec.ofNat 128 (x.toNat % 2 ^ 16) = x ↔ x.toNat < 2 ^ 16 := by
    rw [← BitVec.toNat_inj, BitVec.toNat_ofNat]
    omega
  rw [hlow]
  simp

theorem unpack_pack_loses :
    let k : Key256 := ⟨[0, 1], rfl⟩
    packWith put k >>= unpack ≠ .ok k := by
  decide

end Key256

end Xidata.Eosiolib
