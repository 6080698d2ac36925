import Mathlib.Algebra.Order.Group.Nat
import Mathlib.Tactic.Ring
import Xidata.Library.PrefixSearch

/-!
Numbers as words of a fixed length: digits to a base, the most significant first.  Words of
one length compare like the numbers they stand for.
-/

namespace Positional

variable {b : ℕ}

/-- The last `w` digits of `n` to the base `b`. -/
def digits (b : ℕ) : ℕ → ℕ → List ℕ
  | 0, _ => []
  | w + 1, n => digits b w (n / b) ++ [n % b]

/-- The number a word of digits stands for. -/
def value (b : ℕ) (ds : List ℕ) : ℕ := ds.foldl (fun v d => v * b + d) 0

@[simp] theorem length_digits (w n : ℕ) : (digits b w n).length = w := by
  induction w generalizing n with
  | zero => rfl
  | succ w ih => rw [digits, List.length_append, ih, List.length_singleton]

theorem digits_lt (hb : 0 < b) {w n d : ℕ} (h : d ∈ digits b w n) : d < b := by
  induction w generalizing n with
  | zero => cases h
  | succ w ih =>
      rw [digits, List.mem_append, List.mem_singleton] at h
      rcases h with h | rfl
      · exact ih h
      · exact Nat.mod_lt n hb

/-- The first digits of a word are those of what is left without the last ones. -/
theorem digits_append (v w n : ℕ) :
    digits b (v + w) n = digits b v (n / b ^ w) ++ digits b w n := by
  induction w generalizing n with
  | zero => rw [pow_zero, Nat.div_one, digits, List.append_nil, Nat.add_zero]
  | succ w ih =>
      rw [← Nat.add_assoc, digits, ih, digits, Nat.div_div_eq_div_mul, pow_succ', List.append_assoc]

theorem digits_zero (w : ℕ) : digits b w 0 = List.replicate w 0 := by
  induction w with
  | zero => rfl
  | succ w ih => rw [digits, Nat.zero_div, Nat.zero_mod, ih, List.replicate_succ']

theorem digits_eq_of_mod {w m n : ℕ} (h : m % b ^ w = n % b ^ w) :
    digits b w m = digits b w n := by
  induction w generalizing m n with
  | zero => rfl
  | succ w ih =>
      rw [pow_succ'] at h
      have hrest : m / b % b ^ w = n / b % b ^ w := by
        rw [← Nat.mod_mul_right_div_self, ← Nat.mod_mul_right_div_self, h]
      have hlast : m % b = n % b := by
        rw [← Nat.mod_mul_right_mod m b (b ^ w), h, Nat.mod_mul_right_mod]
      rw [digits, digits, ih hrest, hlast]

/-- The digit at a place, counted from the first. -/
theorem getElem?_digits {w i : ℕ} (n : ℕ) (h : i < w) :
    (digits b w n)[i]? = some (n / b ^ (w - 1 - i) % b) := by
  obtain ⟨k, rfl⟩ : ∃ k, w = i + 1 + k := ⟨w - (i + 1), by omega⟩
  have hplace : i + 1 + k - 1 - i = k := by omega
  have hlength : (digits b (i + 1) (n / b ^ k)).length = i + 1 := length_digits _ _
  rw [digits_append, List.getElem?_append_left (by omega), digits, hplace,
    List.getElem?_append_right (by rw [length_digits]), length_digits, Nat.sub_self]
  rfl

/-! ### The number of a word -/

theorem value_concat (l : List ℕ) (d : ℕ) : value b (l ++ [d]) = value b l * b + d := by
  rw [value, List.foldl_append]
  rfl

theorem value_append_zeros (l : List ℕ) (k : ℕ) :
    value b (l ++ List.replicate k 0) = value b l * b ^ k := by
  induction k with
  | zero => rw [List.replicate_zero, List.append_nil, pow_zero, mul_one]
  | succ k ih =>
      rw [List.replicate_succ', ← List.append_assoc, value_concat, ih, pow_succ]
      ring

theorem value_lt {l : List ℕ} (h : ∀ d ∈ l, d < b) : value b l < b ^ l.length := by
  induction l using List.reverseRecOn with
  | nil => exact Nat.one_pos
  | append_singleton l d ih =>
      rw [List.forall_mem_append] at h
      have hlast : d < b := h.2 d List.mem_cons_self
      have hrest : (value b l + 1) * b ≤ b ^ l.length * b := Nat.mul_le_mul_right b (ih h.1)
      rw [value_concat, List.length_append, List.length_singleton, pow_succ]
      calc value b l * b + d < value b l * b + b := Nat.add_lt_add_left hlast _
        _ = (value b l + 1) * b := by ring
        _ ≤ b ^ l.length * b := hrest

theorem value_digits {w n : ℕ} (h : n < b ^ w) : value b (digits b w n) = n := by
  induction w generalizing n with
  | zero =>
      rw [pow_zero] at h
      exact (Nat.lt_one_iff.mp h).symm
  | succ w ih =>
      rw [pow_succ'] at h
      rw [digits, value_concat, ih (Nat.div_lt_of_lt_mul h), Nat.div_add_mod']

theorem value_digits_mod (hb : 0 < b) (w n : ℕ) : value b (digits b w n) = n % b ^ w := by
  have hlt : n % b ^ w < b ^ w := Nat.mod_lt _ (Nat.pow_pos hb)
  rw [digits_eq_of_mod (Nat.mod_mod n (b ^ w)).symm, value_digits hlt]

theorem digits_value {l : List ℕ} (h : ∀ d ∈ l, d < b) : digits b l.length (value b l) = l := by
  induction l using List.reverseRecOn with
  | nil => rfl
  | append_singleton l d ih =>
      rw [List.forall_mem_append] at h
      have hlast : d < b := h.2 d List.mem_cons_self
      have hdiv : (value b l * b + d) / b = value b l := by
        rw [Nat.add_comm, Nat.add_mul_div_right _ _ (by omega), Nat.div_eq_of_lt hlast, zero_add]
      have hmod : (value b l * b + d) % b = d := by
        rw [Nat.add_comm, Nat.add_mul_mod_self_right, Nat.mod_eq_of_lt hlast]
      rw [value_concat, List.length_append, List.length_singleton, digits, hdiv, hmod, ih h.1]

theorem digits_mul_pow (hb : 0 < b) (v w m : ℕ) :
    digits b (v + w) (m * b ^ w) = digits b v m ++ List.replicate w 0 := by
  have hzero : digits b w (m * b ^ w) = digits b w 0 :=
    digits_eq_of_mod ((Nat.mul_mod_left _ _).trans (Nat.zero_mod _).symm)
  rw [digits_append, Nat.mul_div_cancel _ (Nat.pow_pos hb), hzero, digits_zero]

theorem value_eq_zero_iff (hb : 0 < b) {l : List ℕ} : value b l = 0 ↔ ∀ d ∈ l, d = 0 := by
  induction l using List.reverseRecOn with
  | nil => simp [value]
  | append_singleton l d ih =>
      rw [value_concat, List.forall_mem_append, ← ih]
      simp [hb.ne']

/-- Digits to a power of the base are blocks of digits to the base. -/
theorem digits_value_pow {w : ℕ} {l : List ℕ} (h : ∀ d ∈ l, d < b ^ w) :
    digits b (l.length * w) (value (b ^ w) l) = l.flatMap (digits b w) := by
  induction l using List.reverseRecOn with
  | nil => rw [List.length_nil, Nat.zero_mul]; rfl
  | append_singleton l d ih =>
      rw [List.forall_mem_append] at h
      have hlast : d < b ^ w := h.2 d List.mem_cons_self
      have hpos : 0 < b ^ w := by omega
      have hdiv : (value (b ^ w) l * b ^ w + d) / b ^ w = value (b ^ w) l := by
        rw [Nat.add_comm, Nat.add_mul_div_right _ _ hpos, Nat.div_eq_of_lt hlast, zero_add]
      have hmod : (value (b ^ w) l * b ^ w + d) % b ^ w = d % b ^ w := by
        rw [Nat.add_comm, Nat.add_mul_mod_self_right]
      rw [value_concat, List.length_append, List.length_singleton, Nat.add_mul, Nat.one_mul,
        digits_append, hdiv, ih h.1, digits_eq_of_mod hmod, List.flatMap_append]
      simp

/-! ### Order -/

theorem digits_lt_digits {w m n : ℕ} (h : m < n) (hn : n < b ^ w) :
    digits b w m < digits b w n := by
  induction w generalizing m n with
  | zero =>
      rw [pow_zero] at hn
      omega
  | succ w ih =>
      rw [pow_succ'] at hn
      have hdiv : n / b < b ^ w := Nat.div_lt_of_lt_mul hn
      rw [digits, digits]
      rcases (Nat.div_le_div_right (c := b) h.le).lt_or_eq with hlt | heq
      · exact PrefixSearch.append_lt_append (by simp) (ih hlt hdiv) _ _
      · have hm := Nat.div_add_mod m b
        have hn := Nat.div_add_mod n b
        rw [heq] at hm ⊢
        exact List.append_left_lt (List.cons_lt_cons_iff.mpr (.inl (by omega)))

end Positional
