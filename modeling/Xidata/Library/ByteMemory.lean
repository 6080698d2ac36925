import Mathlib.Algebra.Order.Ring.Nat
import Mathlib.Logic.Function.Basic
import Mathlib.Tactic.Ring

/-!
A linear memory of bytes.  A word of `n` bytes lies in it with its low byte first.
What a store, a fill or a copy leaves alone is said by the addresses it writes to.
-/

namespace ByteMemory

abbrev Bytes := ℕ → UInt8

variable {m m' : Bytes} {a b n k v : ℕ}

/-- The word of `n` bytes at `a`. -/
def load (m : Bytes) (a : ℕ) : ℕ → ℕ
  | 0 => 0
  | n + 1 => (m a).toNat + 256 * load m (a + 1) n

/-- The memory with the `n` low bytes of `v` at `a`. -/
def store (m : Bytes) (a : ℕ) : ℕ → ℕ → Bytes
  | 0, _ => m
  | n + 1, v => store (Function.update m a (UInt8.ofNat v)) (a + 1) n (v / 256)

/-- The memory with `n` times the byte `v` at `a`. -/
def fill (m : Bytes) (a : ℕ) (v : UInt8) (n : ℕ) : Bytes := fun b =>
  if a ≤ b ∧ b < a + n then v else m b

/-- The memory with the `n` bytes at `b` copied to `a`. -/
def copy (m : Bytes) (a b n : ℕ) : Bytes := fun c =>
  if a ≤ c ∧ c < a + n then m (b + (c - a)) else m c

/-! ### What stays -/

theorem store_outside (h : b < a ∨ a + n ≤ b) : store m a n v b = m b := by
  induction n generalizing m a v with
  | zero => rfl
  | succ n ih =>
      rw [store, ih (by omega), Function.update_of_ne (by omega)]

theorem fill_outside {v : UInt8} (h : b < a ∨ a + n ≤ b) : fill m a v n b = m b :=
  if_neg (by omega)

theorem copy_outside {c : ℕ} (h : c < a ∨ a + n ≤ c) : copy m a b n c = m c := if_neg (by omega)

theorem copy_inside (h : k < n) : copy m a b n (a + k) = m (b + k) := by
  rw [copy, if_pos (by omega), Nat.add_sub_cancel_left]

/-- A word depends on its own bytes only. -/
theorem load_congr (h : ∀ b, a ≤ b → b < a + n → m' b = m b) : load m' a n = load m a n := by
  induction n generalizing a with
  | zero => rfl
  | succ n ih =>
      rw [load, load, h a le_rfl (by omega), ih fun b hb hlt => h b (by omega) (by omega)]

/-! ### What is stored -/

theorem load_lt (m : Bytes) (a n : ℕ) : load m a n < 256 ^ n := by
  induction n generalizing a with
  | zero => exact one_pos
  | succ n ih =>
      have hbyte : (m a).toNat < 256 := UInt8.toNat_lt (m a)
      have hrest := ih (a + 1)
      rw [load, pow_succ]
      omega

theorem load_store (m : Bytes) (a n v : ℕ) : load (store m a n v) a n = v % 256 ^ n := by
  induction n generalizing m a v with
  | zero => rw [pow_zero, Nat.mod_one, load]
  | succ n ih =>
      rw [store, load, store_outside (Or.inl (Nat.lt_succ_self a)), Function.update_self, ih,
        UInt8.toNat_ofNat', pow_succ' 256 n, Nat.mod_mul]

theorem load_store_of_lt (h : v < 256 ^ n) : load (store m a n v) a n = v := by
  rw [load_store, Nat.mod_eq_of_lt h]

/-- Storing the word that is there changes nothing. -/
theorem store_load (m : Bytes) (a n : ℕ) : store m a n (load m a n) = m := by
  induction n generalizing a with
  | zero => rfl
  | succ n ih =>
      have hbyte : (m a).toNat < 256 := UInt8.toNat_lt (m a)
      have hlow : UInt8.ofNat ((m a).toNat + 256 * load m (a + 1) n) = m a := by
        apply UInt8.toNat_inj.mp
        rw [UInt8.toNat_ofNat']
        omega
      have hhigh : ((m a).toNat + 256 * load m (a + 1) n) / 256 = load m (a + 1) n := by omega
      rw [load, store, hlow, hhigh, Function.update_eq_self, ih]

end ByteMemory
