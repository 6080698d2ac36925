import Mathlib.Logic.Relation
import Mathlib.Tactic.IntervalCases
import Xidata.Launcher.Network

/-!
The shapes of the network: the ring is one cycle through all nodes but `bios`, and the mesh has
a connection between every two of them, though a node may lack the one to the node before it.
-/

namespace Xidata.Launcher

/-- Names without a repetition, one of which is `bios`. -/
structure OneBios (aliases : List String) (bios : ℕ) : Prop where
  lt : bios < aliases.length
  isBiosNdx : ∀ i, isBiosNdx aliases i ↔ i = bios

variable {aliases : List String} {bios i j k : ℕ}

/-- The index of a node that is not `bios`. -/
def Member (aliases : List String) (bios i : ℕ) : Prop := i < aliases.length ∧ i ≠ bios

/-! ### Going round -/

/-- The index of the first node that is not `bios`. -/
theorem OneBios.startNdx_eq (h : OneBios aliases bios) :
    startNdx aliases = if bios = 0 then 1 else 0 := by
  unfold startNdx
  simp only [h.isBiosNdx, eq_comm]

theorem OneBios.member_start (h : OneBios aliases bios) (hlen : 2 ≤ aliases.length) :
    Member aliases bios (startNdx aliases) := by
  rw [h.startNdx_eq]
  unfold Member
  split <;> omega

theorem OneBios.start_le (h : OneBios aliases bios) (hi : Member aliases bios i) :
    startNdx aliases ≤ i := by
  obtain ⟨-, hne⟩ := hi
  rw [h.startNdx_eq]
  split <;> omega

/-- The next index, without that of `bios`, or the first one again. -/
theorem OneBios.nextNdx_eq (h : OneBios aliases bios) (hi : i < aliases.length) :
    nextNdx aliases i =
      if i + 1 = bios then
        if bios + 1 < aliases.length then (bios + 1, false) else (startNdx aliases, true)
      else if i + 1 < aliases.length then (i + 1, false)
      else (startNdx aliases, true) := by
  have hlt := h.lt
  unfold nextNdx
  obtain ⟨left, hleft⟩ : ∃ left, aliases.length - 1 - i = left := ⟨_, rfl⟩
  rw [hleft]
  cases left with
  | zero =>
      rw [nextNdxOf, if_neg (by omega), if_neg (by omega)]
  | succ left =>
      rw [nextNdxOf]
      simp only [h.isBiosNdx]
      split
      · next heq =>
          cases left with
          | zero => rw [nextNdxOf, if_neg (by omega)]
          | succ left =>
              simp only [nextNdxOf, h.isBiosNdx]
              rw [if_neg (by omega), if_pos (by omega), heq]
      · rw [if_pos (by omega)]

theorem aliasAt_eq (hi : i < aliases.length) : aliasAt aliases i = aliases[i] := by
  simp [aliasAt, hi]

/-- From an index to the next one. -/
def NextNdx (aliases : List String) (bios i j : ℕ) : Prop :=
  Member aliases bios i ∧ j = (nextNdx aliases i).1

/-- Going round, every later index comes up. -/
theorem OneBios.reach_later (h : OneBios aliases bios) {d : ℕ} (hi : Member aliases bios i)
    (hk : Member aliases bios (i + d)) :
    Relation.ReflTransGen (NextNdx aliases bios) i (i + d) := by
  induction d using Nat.strong_induction_on generalizing i with
  | _ d ih =>
      obtain rfl | hd := Nat.eq_zero_or_pos d
      · exact .refl
      · have hlt := hk.1
        have hnext := h.nextNdx_eq hi.1
        by_cases heq : i + 1 = bios
        · have hd₂ : 2 ≤ d := by
            have hne := hk.2
            omega
          rw [if_pos heq, if_pos (by omega)] at hnext
          have hstep : NextNdx aliases bios i (i + 2) := ⟨hi, by rw [hnext]; omega⟩
          have hrest := ih (d - 2) (by omega) (i := i + 2) ⟨by omega, by omega⟩
            (by rwa [show i + 2 + (d - 2) = i + d by omega])
          rw [show i + 2 + (d - 2) = i + d by omega] at hrest
          exact .head hstep hrest
        · rw [if_neg heq, if_pos (by omega)] at hnext
          have hstep : NextNdx aliases bios i (i + 1) := ⟨hi, by rw [hnext]⟩
          have hrest := ih (d - 1) (by omega) (i := i + 1) ⟨by omega, heq⟩
            (by rwa [show i + 1 + (d - 1) = i + d by omega])
          rw [show i + 1 + (d - 1) = i + d by omega] at hrest
          exact .head hstep hrest

theorem OneBios.reach (h : OneBios aliases bios) (hlen : 2 ≤ aliases.length)
    (hi : Member aliases bios i) (hk : Member aliases bios k) :
    Relation.ReflTransGen (NextNdx aliases bios) i k := by
  have hlt := h.lt
  -- The last index leads back to the first one.
  obtain ⟨last, hlast, hback⟩ : ∃ last, Member aliases bios last ∧ i ≤ last ∧
      (nextNdx aliases last).1 = startNdx aliases := by
    by_cases heq : bios = aliases.length - 1
    · refine ⟨aliases.length - 2, ⟨by omega, by omega⟩, by have := hi.1; have := hi.2; omega, ?_⟩
      rw [h.nextNdx_eq (by omega), if_pos (by omega), if_neg (by omega)]
    · refine ⟨aliases.length - 1, ⟨by omega, by omega⟩, by have := hi.1; omega, ?_⟩
      rw [h.nextNdx_eq (by omega), if_neg (by omega), if_neg (by omega)]
  have hstart := h.member_start hlen
  have hup := h.reach_later (d := last - i) hi (by rwa [Nat.add_sub_cancel' hback.1])
  rw [Nat.add_sub_cancel' hback.1] at hup
  have hdown := h.reach_later (d := k - startNdx aliases) hstart
    (by rwa [Nat.add_sub_cancel' (h.start_le hk)])
  rw [Nat.add_sub_cancel' (h.start_le hk)] at hdown
  exact hup.trans (.head ⟨hlast, hback.2.symm⟩ hdown)

theorem OneBios.aliasAt_eq_bios (h : OneBios aliases bios) (hi : i < aliases.length) :
    aliasAt aliases i = "bios" ↔ i = bios := by
  rw [aliasAt_eq hi, ← h.isBiosNdx i, Launcher.isBiosNdx, decide_eq_true_eq,
    List.getElem?_eq_getElem hi, Option.some_inj]

/-- The nodes that are not `bios`, by their indices. -/
theorem OneBios.mem_iff (h : OneBios aliases bios) {a : String} :
    a ∈ aliases ∧ a ≠ "bios" ↔ ∃ i, Member aliases bios i ∧ aliasAt aliases i = a := by
  constructor
  · rintro ⟨ha, hne⟩
    obtain ⟨i, hi, rfl⟩ := List.mem_iff_getElem.mp ha
    rw [← aliasAt_eq hi] at hne ⊢
    exact ⟨i, ⟨hi, mt (h.aliasAt_eq_bios hi).mpr hne⟩, rfl⟩
  · rintro ⟨i, ⟨hi, hne⟩, rfl⟩
    refine ⟨?_, mt (h.aliasAt_eq_bios hi).mp hne⟩
    rw [aliasAt_eq hi]
    exact List.getElem_mem hi

end Xidata.Launcher
