import Mathlib.Data.List.Flatten
import Mathlib.Algebra.Order.Group.Nat
import Mathlib.Tactic.SplitIfs

/-!
UTF-8 and a decoder of it that puts a replacement for what is not well-formed: one for every
longest part that could begin a character.  Texts that are decoded in parts come out as they
were exactly if no part begins inside a character.
-/

namespace Utf8

/-- The bytes of a text. -/
def encode (text : List Char) : List UInt8 := text.flatMap String.utf8EncodeChar

def replacement : Char := '\uFFFD'

/-! ### The decoder -/

/-- A character that has begun: its bits so far, how many bytes are still needed, and the
bounds of the next one, which is never the first of a character. -/
structure Begun where
  point : ℕ
  needed : ℕ
  lower : ℕ := 0x80
  upper : ℕ := 0xBF
  le_lower : 0x80 ≤ lower := by decide
  upper_le : upper ≤ 0xBF := by decide

/-- What a byte gives where a character begins. -/
def lead (b : ℕ) : List Char × Option Begun :=
  if b ≤ 0x7F then ([Char.ofNat b], none)
  else if 0xC2 ≤ b ∧ b ≤ 0xDF then ([], some { point := b % 0x20, needed := 1 })
  else if 0xE0 ≤ b ∧ b ≤ 0xEF then
    -- Neither an overlong form nor a surrogate.
    ([], some {
      point := b % 0x10
      needed := 2
      lower := if b = 0xE0 then 0xA0 else 0x80
      upper := if b = 0xED then 0x9F else 0xBF
      le_lower := by split <;> decide
      upper_le := by split <;> decide })
  else if 0xF0 ≤ b ∧ b ≤ 0xF4 then
    ([], some {
      point := b % 0x08
      needed := 3
      lower := if b = 0xF0 then 0x90 else 0x80
      upper := if b = 0xF4 then 0x8F else 0xBF
      le_lower := by split <;> decide
      upper_le := by split <;> decide })
  else ([replacement], none)

/-- A byte that cannot go on with what has begun is read once more as the first of the next. -/
def next (begun : Option Begun) (b : ℕ) : List Char × Option Begun :=
  match begun with
  | none => lead b
  | some p =>
    if p.lower ≤ b ∧ b ≤ p.upper then
      let point := p.point * 0x40 + b % 0x40
      if p.needed = 1 then ([Char.ofNat point], none)
      else ([], some { point := point, needed := p.needed - 1 })
    else (replacement :: (lead b).1, (lead b).2)

def decodeFrom (begun : Option Begun) : List UInt8 → List Char
  | [] => if begun.isSome then [replacement] else []
  | b :: bytes => (next begun b.toNat).1 ++ decodeFrom (next begun b.toNat).2 bytes

def decode (bytes : List UInt8) : List Char := decodeFrom none bytes

/-! ### The bytes of one character -/

theorem decodeFrom_none_cons (b : UInt8) (bytes : List UInt8) :
    decodeFrom none (b :: bytes) = (lead b.toNat).1 ++ decodeFrom (lead b.toNat).2 bytes := rfl

theorem decodeFrom_last {p : Begun} {b : UInt8} (bytes : List UInt8)
    (hbounds : p.lower ≤ b.toNat ∧ b.toNat ≤ p.upper) (hneeded : p.needed = 1) :
    decodeFrom (some p) (b :: bytes) =
      Char.ofNat (p.point * 0x40 + b.toNat % 0x40) :: decodeFrom none bytes := by
  simp only [decodeFrom, next, if_pos hbounds, if_pos hneeded, List.singleton_append]

theorem decodeFrom_more {p : Begun} {b : UInt8} (bytes : List UInt8)
    (hbounds : p.lower ≤ b.toNat ∧ b.toNat ≤ p.upper) (hneeded : p.needed ≠ 1) :
    decodeFrom (some p) (b :: bytes) =
      decodeFrom (some { point := p.point * 0x40 + b.toNat % 0x40, needed := p.needed - 1 })
        bytes := by
  simp only [decodeFrom, next, if_pos hbounds, if_neg hneeded, List.nil_append]

theorem toNat_byte {n : ℕ} (h : n < 0x100) : (UInt8.ofNat n).toNat = n := by
  rw [UInt8.toNat_ofNat', Nat.mod_eq_of_lt h]

/-- The last six bits. -/
theorem toNat_tail (n : ℕ) : (UInt8.ofNat (n % 0x40 + 0x80)).toNat = n % 0x40 + 0x80 :=
  toNat_byte (by omega)

theorem isScalar (c : Char) :
    c.val.toNat < 0xD800 ∨ 0xDFFF < c.val.toNat ∧ c.val.toNat < 0x110000 := c.valid

/-- A character is read back from its bytes. -/
theorem decodeFrom_char (c : Char) (bytes : List UInt8) :
    decodeFrom none (String.utf8EncodeChar c ++ bytes) = c :: decodeFrom none bytes := by
  have hscalar := isScalar c
  have hc : Char.ofNat c.val.toNat = c := Char.ofNat_toNat c
  unfold String.utf8EncodeChar
  generalize c.val.toNat = v at hscalar hc
  dsimp only
  split_ifs with hone htwo hthree
  · rw [List.singleton_append, decodeFrom_none_cons, toNat_byte (by omega), lead, if_pos hone, hc]
    rfl
  · have hb : (UInt8.ofNat (v / 64 % 0x20 + 0xC0)).toNat = v / 64 % 0x20 + 0xC0 :=
      toNat_byte (by omega)
    have hpoint : (v / 64 % 0x20 + 0xC0) % 0x20 * 0x40 + (v % 64 + 0x80) % 0x40 = v := by omega
    rw [List.cons_append, List.singleton_append, decodeFrom_none_cons, hb, lead,
      if_neg (by omega), if_pos (by omega), List.nil_append,
      decodeFrom_last _ (by rw [toNat_tail]; dsimp only; omega) rfl, toNat_tail]
    dsimp only
    rw [hpoint, hc]
  · have hb : (UInt8.ofNat (v / 4096 % 0x10 + 0xE0)).toNat = v / 4096 % 0x10 + 0xE0 :=
      toNat_byte (by omega)
    have hpoint : ((v / 4096 % 0x10 + 0xE0) % 0x10 * 0x40 + (v / 64 % 64 + 0x80) % 0x40) * 0x40 +
        (v % 64 + 0x80) % 0x40 = v := by omega
    rw [List.cons_append, List.cons_append, List.singleton_append, decodeFrom_none_cons, hb, lead,
      if_neg (by omega), if_neg (by omega), if_pos (by omega), List.nil_append,
      decodeFrom_more _ (by rw [toNat_tail]; dsimp only; split_ifs <;> omega) (by simp),
      toNat_tail,
      decodeFrom_last _ (by rw [toNat_tail]; dsimp only; omega) rfl, toNat_tail]
    dsimp only
    rw [hpoint, hc]
  · have hb : (UInt8.ofNat (v / 262144 % 0x08 + 0xF0)).toNat = v / 262144 % 0x08 + 0xF0 :=
      toNat_byte (by omega)
    have hpoint : (((v / 262144 % 0x08 + 0xF0) % 0x08 * 0x40 +
        (v / 4096 % 64 + 0x80) % 0x40) * 0x40 + (v / 64 % 64 + 0x80) % 0x40) * 0x40 +
        (v % 64 + 0x80) % 0x40 = v := by omega
    rw [List.cons_append, List.cons_append, List.cons_append, List.singleton_append,
      decodeFrom_none_cons, hb, lead, if_neg (by omega), if_neg (by omega), if_neg (by omega),
      if_pos (by omega), List.nil_append,
      decodeFrom_more _ (by rw [toNat_tail]; dsimp only; split_ifs <;> omega) (by simp),
      toNat_tail,
      decodeFrom_more _ (by rw [toNat_tail]; dsimp only; omega) (by simp), toNat_tail,
      decodeFrom_last _ (by rw [toNat_tail]; dsimp only; omega) rfl, toNat_tail]
    dsimp only
    rw [hpoint, hc]

/-- A text that has been encoded is read back, whatever comes after it. -/
theorem decode_encode_append (text : List Char) (bytes : List UInt8) :
    decode (encode text ++ bytes) = text ++ decode bytes := by
  induction text with
  | nil => rfl
  | cons c text ih =>
      rw [encode, List.flatMap_cons, List.append_assoc, decode, decodeFrom_char]
      exact congrArg (c :: ·) ih

theorem decode_encode (text : List Char) : decode (encode text) = text := by
  simpa [decode, decodeFrom] using decode_encode_append text []

/-! ### Where characters begin -/

/-- A byte that is not the first of a character. -/
def IsTail (b : UInt8) : Prop := 0x80 ≤ b.toNat ∧ b.toNat ≤ 0xBF

instance (b : UInt8) : Decidable (IsTail b) := inferInstanceAs (Decidable (_ ∧ _))

/-- How many bytes are not tails. -/
def leads (bytes : List UInt8) : ℕ := bytes.countP fun b => ¬ IsTail b

theorem isTail_ofNat (n : ℕ) : IsTail (UInt8.ofNat (n % 64 + 0x80)) := by
  rw [IsTail, toNat_tail]
  omega

theorem forall_tails (places : List ℕ) :
    ∀ x ∈ places.map fun n => UInt8.ofNat (n % 64 + 0x80), IsTail x :=
  List.forall_mem_map.mpr fun n _ => isTail_ofNat n

theorem not_isTail_ofNat {n : ℕ} (h : 0xC0 ≤ n) (hlt : n < 0x100) : ¬ IsTail (UInt8.ofNat n) := by
  rw [IsTail, toNat_byte hlt]
  omega

/-- Only the first byte of a character is not a tail. -/
theorem char_bytes (c : Char) : ∃ b bytes, String.utf8EncodeChar c = b :: bytes ∧
    ¬ IsTail b ∧ ∀ x ∈ bytes, IsTail x := by
  unfold String.utf8EncodeChar
  generalize c.val.toNat = v
  dsimp only
  split_ifs with hone htwo hthree
  · refine ⟨_, _, rfl, ?_, by simp⟩
    rw [IsTail, toNat_byte (by omega)]
    omega
  · exact ⟨_, _, rfl, not_isTail_ofNat (by omega) (by omega), forall_tails [v]⟩
  · exact ⟨_, _, rfl, not_isTail_ofNat (by omega) (by omega), forall_tails [v / 64, v]⟩
  · exact ⟨_, _, rfl, not_isTail_ofNat (by omega) (by omega), forall_tails [v / 4096, v / 64, v]⟩

theorem leads_char (c : Char) : leads (String.utf8EncodeChar c) = 1 := by
  obtain ⟨b, bytes, hbytes, hb, htails⟩ := char_bytes c
  have hrest : leads bytes = 0 := List.countP_eq_zero.mpr fun x hx => by simpa using htails x hx
  rw [hbytes, leads, List.countP_cons_of_pos (by simpa using hb)]
  exact congrArg (· + 1) hrest

theorem leads_encode (text : List Char) : leads (encode text) = text.length := by
  induction text with
  | nil => rfl
  | cons c text ih =>
      rw [encode, List.flatMap_cons, leads, List.countP_append, List.length_cons, Nat.add_comm,
        ← ih]
      exact congrArg _ (leads_char c)

theorem lead_isTail {b : UInt8} (h : IsTail b) : lead b.toNat = ([replacement], none) := by
  obtain ⟨hlo, hhi⟩ := h
  rw [lead, if_neg (by omega), if_neg (by omega), if_neg (by omega), if_neg (by omega)]

/-- The replacement that a character that has begun becomes if nothing comes after it. -/
def owed : Option Begun → ℕ
  | none => 0
  | some _ => 1

theorem lead_length (b : ℕ) : (lead b).1.length + owed (lead b).2 = 1 := by
  unfold lead
  split_ifs <;> rfl

/-- A byte that is not a tail makes a character or begins one, and what has begun ends. -/
theorem next_length (begun : Option Begun) (b : UInt8) :
    (if IsTail b then 0 else 1) + owed begun ≤
      (next begun b.toNat).1.length + owed (next begun b.toNat).2 := by
  have hlead := lead_length b.toNat
  have hone : (if IsTail b then 0 else 1) ≤ 1 := by split_ifs <;> omega
  match begun with
  | none => exact hone.trans hlead.ge
  | some p =>
      by_cases hbounds : p.lower ≤ b.toNat ∧ b.toNat ≤ p.upper
      · have htail : IsTail b := ⟨p.le_lower.trans hbounds.1, hbounds.2.trans p.upper_le⟩
        rw [next, if_pos hbounds, if_pos htail]
        dsimp only
        split_ifs <;> exact le_rfl
      · rw [next, if_neg hbounds]
        show _ + 1 ≤ (lead b.toNat).1.length + 1 + owed (lead b.toNat).2
        omega

/-- Every byte that is not a tail gives a character of its own, and so does what has begun. -/
theorem leads_le (begun : Option Begun) (bytes : List UInt8) :
    leads bytes + owed begun ≤ (decodeFrom begun bytes).length := by
  induction bytes generalizing begun with
  | nil => cases begun <;> exact le_rfl
  | cons b bytes ih =>
      have hstep := next_length begun b
      have hrest := ih (next begun b.toNat).2
      have hcount : leads (b :: bytes) = leads bytes + if IsTail b then 0 else 1 := by
        rw [leads, List.countP_cons, ← leads]
        split_ifs <;> simp_all
      rw [decodeFrom, List.length_append, hcount]
      omega

/-- A tail where a character has to begin gives one more. -/
theorem leads_lt {b : UInt8} (bytes : List UInt8) (h : IsTail b) :
    leads (b :: bytes) < (decode (b :: bytes)).length := by
  have hrest := leads_le none bytes
  have hcount : leads (b :: bytes) = leads bytes := List.countP_cons_of_neg (by simpa using h)
  rw [hcount, decode, decodeFrom_none_cons, lead_isTail h, List.singleton_append,
    List.length_cons]
  exact Nat.lt_succ_of_le hrest

/-! ### Decoding in parts -/

/-- Where a text can be taken apart: no character goes on after it. -/
theorem encode_eq_append {text : List Char} {bytes rest : List UInt8}
    (h : encode text = bytes ++ rest) (hrest : ∀ b ∈ rest.head?, ¬ IsTail b) :
    ∃ before after, bytes = encode before ∧ rest = encode after := by
  induction text generalizing bytes with
  | nil =>
      obtain ⟨rfl, rfl⟩ := List.append_eq_nil_iff.mp h.symm
      exact ⟨[], [], rfl, rfl⟩
  | cons c text ih =>
      rw [encode, List.flatMap_cons] at h
      obtain ⟨more, hbytes, htext⟩ | ⟨more, hchar, hmore⟩ := List.append_eq_append_iff.mp h
      · obtain ⟨before, after, rfl, rfl⟩ := ih htext
        exact ⟨c :: before, after, hbytes, rfl⟩
      · match bytes with
        | [] => exact ⟨[], c :: text, rfl, h.symm⟩
        | x :: bytes =>
            obtain ⟨b, tails, hc, -, htails⟩ := char_bytes c
            rw [hc, List.cons_append] at hchar
            obtain ⟨rfl, rfl⟩ := List.cons.inj hchar
            match more with
            | [] =>
                rw [List.append_nil] at hc
                exact ⟨[c], text, by rw [← hc]; simp [encode], hmore⟩
            | y :: more =>
                have hy : ¬ IsTail y := hrest y (by rw [hmore]; rfl)
                exact absurd (htails y (by simp)) hy

theorem leads_flatten_le (parts : List (List UInt8)) :
    leads parts.flatten ≤ (parts.flatMap decode).length := by
  induction parts with
  | nil => exact le_rfl
  | cons part parts ih =>
      have hpart := leads_le none part
      rw [List.flatten_cons, leads, List.countP_append, List.flatMap_cons, List.length_append]
      exact Nat.add_le_add hpart ih

/-- The text of a part that begins inside a character has too many characters. -/
theorem leads_flatten_lt {parts : List (List UInt8)} {b : UInt8} {bytes : List UInt8}
    (hpart : b :: bytes ∈ parts) (h : IsTail b) :
    leads parts.flatten < (parts.flatMap decode).length := by
  obtain ⟨before, after, rfl⟩ := List.append_of_mem hpart
  have hbefore := leads_flatten_le before
  have hafter := leads_flatten_le after
  have hsplit := leads_lt bytes h
  rw [List.flatten_append, List.flatten_cons, List.flatMap_append, List.flatMap_cons]
  simp only [leads, List.countP_append, List.length_append] at hbefore hafter hsplit ⊢
  omega

theorem not_isTail_head_flatten {parts : List (List UInt8)}
    (h : ∀ part ∈ parts, ∀ b ∈ part.head?, ¬ IsTail b) :
    ∀ b ∈ parts.flatten.head?, ¬ IsTail b := by
  induction parts with
  | nil => simp
  | cons part parts ih =>
      rw [List.forall_mem_cons] at h
      match part with
      | [] => exact ih h.2
      | x :: part => exact h.1

theorem parts_are_texts {text : List Char} {parts : List (List UInt8)}
    (h : parts.flatten = encode text) (hheads : ∀ part ∈ parts, ∀ b ∈ part.head?, ¬ IsTail b) :
    ∀ part ∈ parts, ∃ t, part = encode t := by
  induction parts generalizing text with
  | nil => simp
  | cons part parts ih =>
      rw [List.forall_mem_cons] at hheads ⊢
      rw [List.flatten_cons] at h
      obtain ⟨before, after, hbefore, hafter⟩ :=
        encode_eq_append h.symm (not_isTail_head_flatten hheads.2)
      exact ⟨⟨before, hbefore⟩, ih hafter hheads.2⟩

theorem flatMap_decode_of_texts {parts : List (List UInt8)}
    (h : ∀ part ∈ parts, ∃ t, part = encode t) :
    parts.flatMap decode = decode parts.flatten := by
  induction parts with
  | nil => rfl
  | cons part parts ih =>
      rw [List.forall_mem_cons] at h
      obtain ⟨t, rfl⟩ := h.1
      rw [List.flatMap_cons, List.flatten_cons, decode_encode_append, decode_encode, ih h.2]

/-- Parts of a text are decoded to it exactly if each of them is a text. -/
theorem flatMap_decode_eq_iff {text : List Char} {parts : List (List UInt8)}
    (h : parts.flatten = encode text) :
    parts.flatMap decode = text ↔ ∀ part ∈ parts, ∃ t, part = encode t := by
  constructor
  · intro hsame
    refine parts_are_texts h fun part hpart b hb htail => ?_
    obtain ⟨bytes, rfl⟩ := List.head?_eq_some_iff.mp hb
    have hlt := leads_flatten_lt hpart htail
    rw [h, leads_encode, hsame] at hlt
    exact Nat.lt_irrefl _ hlt
  · intro htexts
    rw [flatMap_decode_of_texts htexts, h, decode_encode]

end Utf8
