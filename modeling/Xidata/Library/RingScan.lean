import Mathlib.Data.List.Rotate

/-!
A scan of a list as a ring: the entries are looked at one after the other from a given
position on, the first one coming after the last, until one is good or the position is
reached again.
-/

namespace RingScan

variable {α : Type*}

/-- The position after `i` in a ring of length `n`. -/
def succ (n i : ℕ) : ℕ := if i + 1 = n then 0 else i + 1

theorem succ_mod {n i : ℕ} (hn : 0 < n) : succ n (i % n) = (i + 1) % n := by
  have hlt : i % n < n := Nat.mod_lt i hn
  rw [Nat.add_mod]
  unfold succ
  split
  next hend =>
    obtain hone | hone : n = 1 ∨ 1 < n := by omega
    · subst hone
      exact (Nat.mod_one _).symm
    · rw [Nat.mod_eq_of_lt hone, hend, Nat.mod_self]
  next hend =>
    have hone : 1 < n := by omega
    rw [Nat.mod_eq_of_lt hone, Nat.mod_eq_of_lt (show i % n + 1 < n by omega)]

/-- The scan at position `i`.  It has no result where it has not ended when the fuel is used
up, or where it leaves the list. -/
def scan (good : α → Bool) (l : List α) (start : ℕ) : ℕ → ℕ → Option (Option α)
  | 0, _ => none
  | fuel + 1, i =>
    match l[i]? with
    | none => none
    | some a =>
      if good a then some (some a)
      else if succ l.length i = start then some none
      else scan good l start fuel (succ l.length i)

variable {good : α → Bool} {l : List α} {start : ℕ}

/-- After `k` entries the scan goes on with the others. -/
theorem scan_after (hstart : start < l.length) {k : ℕ} (hk : k < l.length) {fuel : ℕ}
    (hfuel : l.length ≤ k + fuel) :
    scan good l start fuel ((start + k) % l.length) =
      some (((l.rotate start).drop k).find? good) := by
  have hpos : 0 < l.length := by omega
  induction fuel generalizing k with
  | zero => omega
  | succ fuel ih =>
      have hlt : (start + k) % l.length < l.length := Nat.mod_lt _ hpos
      have hk' : k < (l.rotate start).length := by rwa [List.length_rotate]
      have hentry : (l.rotate start)[k] = l[(start + k) % l.length] := by
        rw [List.getElem_rotate]
        simp only [Nat.add_comm k start]
      rw [scan, List.getElem?_eq_getElem hlt, List.drop_eq_getElem_cons hk', List.find?_cons, hentry]
      dsimp only
      cases good l[(start + k) % l.length] with
      | true => rfl
      | false =>
          rw [if_neg Bool.false_ne_true, succ_mod hpos]
          obtain hlast | hmore : k + 1 = l.length ∨ k + 1 < l.length := by omega
          · have hround : (start + k + 1) % l.length = start := by
              rw [Nat.add_assoc, hlast, Nat.add_mod_right, Nat.mod_eq_of_lt hstart]
            rw [if_pos hround, List.drop_of_length_le (by rw [List.length_rotate]; omega)]
            rfl
          · have hother : (start + k + 1) % l.length ≠ start := by
              intro heq
              rcases Nat.lt_or_ge (start + k + 1) l.length with hsmall | hlarge
              · rw [Nat.mod_eq_of_lt hsmall] at heq
                omega
              · rw [Nat.mod_eq_sub_mod hlarge, Nat.mod_eq_of_lt (by omega)] at heq
                omega
            rw [if_neg hother, Nat.add_assoc]
            exact ih hmore (by omega)

/-- A scan from a position in the list ends after one round at most, with the first good
entry from there on. -/
theorem scan_eq (hstart : start < l.length) {fuel : ℕ} (hfuel : l.length ≤ fuel) :
    scan good l start fuel start = some ((l.rotate start).find? good) := by
  have hscan := @scan_after _ good l start hstart 0 (by omega) fuel (by omega)
  rwa [Nat.add_zero, Nat.mod_eq_of_lt hstart, List.drop_zero] at hscan

end RingScan
