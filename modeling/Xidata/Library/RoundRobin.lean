import Mathlib.Order.Lattice.Nat
import Mathlib.Tactic.Ring

/-!
Slots that are dealt out in turn: `n` parties in a fixed order, each with `r` slots in a
row.  `next` is the first slot from a given one on that is a given party's, as the start of
its next group or as the slot itself.
-/

namespace RoundRobin

variable {n r i s t : ℕ}

/-- The party whose slot it is. -/
def turn (n r s : ℕ) : ℕ :=
  s % (n * r) / r

theorem turn_eq (n r s : ℕ) : turn n r s = s / r % n :=
  Nat.mod_mul_left_div_self s r n

theorem turn_lt (hn : 0 < n) : turn n r s < n := by
  rw [turn_eq]
  exact Nat.mod_lt _ hn

/-- By how many groups the turn of `i` comes after that of `j`. -/
def distance (n j i : ℕ) : ℕ :=
  if j ≤ i then i - j else i + n - j

theorem add_distance_mod (hi : i < n) (g : ℕ) : (g + distance n (g % n) i) % n = i := by
  have hg : g % n < n := Nat.mod_lt _ (by omega)
  rw [Nat.add_mod, distance]
  split
  · rw [Nat.mod_eq_of_lt (a := i - g % n) (by omega), Nat.add_sub_cancel' (by omega),
      Nat.mod_eq_of_lt hi]
  · rw [Nat.mod_eq_of_lt (a := i + n - g % n) (by omega), Nat.add_sub_cancel' (by omega),
      Nat.add_mod_right, Nat.mod_eq_of_lt hi]

/-- No group before that one is the turn of `i`. -/
theorem distance_le {e g : ℕ} (hi : i < n) (h : (g + e) % n = i) : distance n (g % n) i ≤ e := by
  have hg : g % n < n := Nat.mod_lt _ (by omega)
  by_contra hlt
  have hen : e < n := by
    simp only [distance] at hlt
    split at hlt <;> omega
  have hsum : (g % n + e) % n = i := by
    rw [← h, Nat.mod_add_mod]
  simp only [distance] at hlt
  rcases Nat.lt_or_ge (g % n + e) n with hsmall | hlarge
  · rw [Nat.mod_eq_of_lt hsmall] at hsum
    split at hlt <;> omega
  · rw [Nat.mod_eq_sub_mod hlarge, Nat.mod_eq_of_lt (by omega)] at hsum
    split at hlt <;> omega

theorem distance_pos (hi : i < n) {g : ℕ} (h : g % n ≠ i) : 0 < distance n (g % n) i := by
  by_contra hz
  have hd := add_distance_mod hi g
  rw [Nat.eq_zero_of_not_pos hz, Nat.add_zero] at hd
  exact h hd

/-- The first slot from `s` on that is a slot of `i`. -/
def next (n r i s : ℕ) : ℕ :=
  if turn n r s = i then s else s - s % r + distance n (turn n r s) i * r

theorem isLeast_next (hr : 0 < r) (hi : i < n) (s : ℕ) :
    IsLeast {t | s ≤ t ∧ turn n r t = i} (next n r i s) := by
  unfold next
  split
  next h => exact ⟨⟨Nat.le_refl s, h⟩, fun t ht => ht.1⟩
  next h =>
    rw [turn_eq] at h ⊢
    have hpos : 0 < distance n (s / r % n) i := distance_pos hi h
    have hgroup : s - s % r + distance n (s / r % n) i * r =
        (s / r + distance n (s / r % n) i) * r := by
      rw [Nat.add_mul, Nat.div_mul_self_eq_mod_sub_self]
    rw [hgroup]
    refine ⟨⟨?_, ?_⟩, ?_⟩
    · calc
        s ≤ (s / r + 1) * r := (Nat.lt_div_mul_add hr).le.trans_eq (by ring)
        _ ≤ (s / r + distance n (s / r % n) i) * r := Nat.mul_le_mul_right _ (by omega)
    · rw [turn_eq, Nat.mul_div_cancel _ hr]
      exact add_distance_mod hi _
    · intro t ht
      obtain ⟨hst, hturn⟩ := ht
      have hle : s / r ≤ t / r := Nat.div_le_div_right hst
      rw [turn_eq, ← Nat.add_sub_cancel' hle] at hturn
      have hd : distance n (s / r % n) i ≤ t / r - s / r := distance_le hi hturn
      calc
        (s / r + distance n (s / r % n) i) * r ≤ t / r * r :=
          Nat.mul_le_mul_right _ (by omega)
        _ ≤ t := Nat.div_mul_le_self t r

end RoundRobin
