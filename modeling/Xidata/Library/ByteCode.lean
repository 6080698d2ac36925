import Mathlib.Algebra.Group.Nat.Defs
import Mathlib.Data.List.Basic
import Mathlib.Data.Nat.Bitwise

/-!
Numbers as bytes: a fixed number of them, the least significant first; or as
many groups of seven bits as the number needs, every byte but the last with
its high bit set.
-/

namespace ByteCode

/-- What is left of a number without its last digit to the base `b`. -/
theorem div_lt_of_lt_pow_succ {b w n : ℕ} (h : n < b ^ (w + 1)) : n / b < b ^ w := by
  rw [pow_succ, mul_comm] at h
  exact Nat.div_lt_of_lt_mul h

/-! ### Fixed width -/

def littleEndian : ℕ → ℕ → List UInt8
  | 0, _ => []
  | w + 1, n => n.toUInt8 :: littleEndian w (n / 256)

def ofLittleEndian : List UInt8 → ℕ
  | [] => 0
  | b :: bs => b.toNat + 256 * ofLittleEndian bs

@[simp] theorem length_littleEndian (w n : ℕ) : (littleEndian w n).length = w := by
  induction w generalizing n with
  | zero => rfl
  | succ w ih => rw [littleEndian, List.length_cons, ih]

theorem ofLittleEndian_littleEndian {w n : ℕ} (h : n < 256 ^ w) :
    ofLittleEndian (littleEndian w n) = n := by
  induction w generalizing n with
  | zero =>
      rw [pow_zero] at h
      rw [littleEndian, ofLittleEndian]
      omega
  | succ w ih =>
      have hrest : n / 256 < 256 ^ w := div_lt_of_lt_pow_succ h
      have hbyte : n.toUInt8.toNat = n % 256 := by simp
      rw [littleEndian, ofLittleEndian, ih hrest, hbyte]
      omega

theorem ofLittleEndian_lt (l : List UInt8) : ofLittleEndian l < 256 ^ l.length := by
  induction l with
  | nil => exact Nat.one_pos
  | cons b l ih =>
      have hb := b.toNat_lt
      rw [ofLittleEndian, List.length_cons, pow_succ]
      omega

theorem littleEndian_ofLittleEndian (l : List UInt8) :
    littleEndian l.length (ofLittleEndian l) = l := by
  induction l with
  | nil => rfl
  | cons b l ih =>
      have hb := b.toNat_lt
      have hrest : (b.toNat + 256 * ofLittleEndian l) / 256 = ofLittleEndian l := by omega
      have hbyte : (b.toNat + 256 * ofLittleEndian l).toUInt8 = b := by
        apply UInt8.toNat_inj.mp
        simp
      rw [List.length_cons, ofLittleEndian, littleEndian, hrest, hbyte, ih]

theorem ofLittleEndian_append (l m : List UInt8) :
    ofLittleEndian (l ++ m) = ofLittleEndian l + 256 ^ l.length * ofLittleEndian m := by
  induction l with
  | nil => simp [ofLittleEndian]
  | cons b l ih =>
      rw [List.cons_append, ofLittleEndian, ih, ofLittleEndian, List.length_cons, pow_succ',
        Nat.mul_add, Nat.mul_assoc, Nat.add_assoc]

@[simp] theorem ofLittleEndian_replicate_zero (k : ℕ) :
    ofLittleEndian (List.replicate k 0) = 0 := by
  induction k with
  | zero => rfl
  | succ k ih =>
      rw [List.replicate_succ, ofLittleEndian, ih]
      rfl

/-- The bytes of a number of a given width are those that have its value. -/
theorem littleEndian_eq_iff {w n : ℕ} {l : List UInt8} (hn : n < 256 ^ w) (hl : l.length = w) :
    littleEndian w n = l ↔ n = ofLittleEndian l := by
  constructor
  · rintro rfl
    exact (ofLittleEndian_littleEndian hn).symm
  · rintro rfl
    rw [← hl, littleEndian_ofLittleEndian]

/-! ### Groups of seven bits -/

/-- The groups of seven bits of `n`, the least significant first, in at most
`passes` bytes: the high bit of a byte says that another one follows. -/
def varint : ℕ → ℕ → List UInt8
  | 0, _ => []
  | passes + 1, n =>
      if n / 128 = 0 then [n.toUInt8] else (n % 128 + 128).toUInt8 :: varint passes (n / 128)

end ByteCode
