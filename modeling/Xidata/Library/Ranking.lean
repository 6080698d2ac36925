import Mathlib.Data.List.Basic
import Mathlib.Data.List.TakeWhile

/-!
The first `n` of a list in the order of a relation.  They are those that fewer
than `n` others precede; and a search that stops at the first element that does
not satisfy a predicate finds the first `n` of those that do, if it does not
stop too early.
-/

namespace Ranking

variable {α : Type*}

/-- A place in an ordered list is the number of elements that come before. -/
theorem filter_countP_lt {r : α → α → Prop} [DecidableRel r] (hasymm : ∀ a b, r a b → ¬ r b a)
    {l : List α} (hl : l.Pairwise r) (k n : ℕ) :
    l.filter (fun a => k + l.countP (fun b => r b a) < n) = l.take (n - k) := by
  induction l generalizing k with
  | nil => simp
  | cons a l ih =>
      obtain ⟨ha, hl⟩ := List.pairwise_cons.mp hl
      have hhead : (a :: l).countP (fun b => r b a) = 0 := by
        refine List.countP_eq_zero.mpr fun b hb => ?_
        rw [decide_eq_true_iff]
        rcases List.mem_cons.mp hb with rfl | hb
        · exact fun h => hasymm b b h h
        · exact hasymm a b (ha b hb)
      have htail : l.filter (fun b => k + (a :: l).countP (fun c => r c b) < n) =
          l.filter (fun b => (k + 1) + l.countP (fun c => r c b) < n) := by
        refine List.filter_congr fun b hb => ?_
        have hone : (a :: l).countP (fun c => r c b) = l.countP (fun c => r c b) + 1 :=
          List.countP_cons_of_pos (p := fun c => decide (r c b)) (decide_eq_true (ha b hb))
        rw [hone, show k + (l.countP (fun c => r c b) + 1) = k + 1 + l.countP (fun c => r c b) by
          omega]
      rw [List.filter_cons, hhead, Nat.add_zero, htail, ih hl]
      by_cases hk : k < n
      · rw [if_pos (decide_eq_true hk), show n - k = (n - (k + 1)) + 1 by omega,
          List.take_succ_cons]
      · rw [if_neg (by simpa using not_lt.mp hk), show n - k = 0 by omega,
          show n - (k + 1) = 0 by omega, List.take_zero, List.take_zero]

/-- The list up to the first element that does not satisfy `p`, and with it those
that do. -/
theorem takeWhile_cases (p : α → Bool) (l : List α) :
    l.takeWhile p = l ∨ ∃ b post, l = l.takeWhile p ++ b :: post ∧ p b = false ∧
      l.filter p = l.takeWhile p ++ post.filter p := by
  have hall : (l.takeWhile p).filter p = l.takeWhile p :=
    List.filter_eq_self.mpr fun a ha => List.mem_takeWhile_imp ha
  have hsplit : l = l.takeWhile p ++ l.dropWhile p := List.takeWhile_append_dropWhile.symm
  cases hrest : l.dropWhile p with
  | nil => exact .inl (by rw [hrest, List.append_nil] at hsplit; exact hsplit.symm)
  | cons b post =>
      have hb : p b = false := by
        have hhead := List.head?_dropWhile_not p l
        rw [hrest] at hhead
        simpa using hhead
      rw [hrest] at hsplit
      refine .inr ⟨b, post, hsplit, hb, ?_⟩
      conv_lhs => rw [hsplit]
      rw [List.filter_append, hall, List.filter_cons_of_neg (by rw [hb]; exact Bool.false_ne_true)]

/-- The search does not stop too early: whatever does not satisfy `p` comes after
the first `n` that do, or after all of them. -/
def NotCut (r : α → α → Prop) [DecidableRel r] (p : α → Bool) (l : List α) (n : ℕ) : Prop :=
  ∀ b ∈ l, p b = false → min n (l.filter p).length ≤ (l.filter p).countP fun a => r a b

instance (r : α → α → Prop) [DecidableRel r] (p : α → Bool) (l : List α) (n : ℕ) :
    Decidable (NotCut r p l n) := List.decidableBAll _ l

theorem notCut_iff {r : α → α → Prop} [DecidableRel r] (hasymm : ∀ a b, r a b → ¬ r b a)
    {p : α → Bool} {l : List α} (hl : l.Pairwise r) (n : ℕ) :
    NotCut r p l n ↔ min n (l.filter p).length ≤ (l.takeWhile p).length := by
  rcases takeWhile_cases p l with hall | ⟨b, post, hsplit, hb, hfilter⟩
  · have hp : ∀ a ∈ l, p a = true := fun a ha => List.mem_takeWhile_imp (by rwa [hall])
    rw [List.filter_eq_self.mpr hp, hall]
    refine ⟨fun _ => min_le_right _ _, fun _ a ha hpa => ?_⟩
    rw [hp a ha] at hpa
    cases hpa
  · have hord := hl
    rw [hsplit] at hord
    obtain ⟨-, hpost, hpre⟩ := List.pairwise_append.mp hord
    -- those in front of `b` are exactly those the search finds
    have hbefore : (l.filter p).countP (fun a => r a b) = (l.takeWhile p).length := by
      rw [hfilter, List.countP_append]
      have hin : (l.takeWhile p).countP (fun a => r a b) = (l.takeWhile p).length :=
        List.countP_eq_length.mpr fun a ha => decide_eq_true (hpre a ha b List.mem_cons_self)
      have hout : (post.filter p).countP (fun a => r a b) = 0 := by
        refine List.countP_eq_zero.mpr fun a ha => ?_
        rw [decide_eq_true_iff]
        exact hasymm b a ((List.pairwise_cons.mp hpost).1 a (List.mem_of_mem_filter ha))
      rw [hin, hout, Nat.add_zero]
    constructor
    · intro hcut
      rw [← hbefore]
      exact hcut b (by rw [hsplit]; exact List.mem_append_right _ List.mem_cons_self) hb
    · intro hle c hc hpc
      have hmem := hc
      rw [hsplit] at hmem
      rcases List.mem_append.mp hmem with hc | hc
      · rw [List.mem_takeWhile_imp hc] at hpc
        cases hpc
      · refine hle.trans ?_
        rw [hfilter, List.countP_append]
        refine le_trans (le_of_eq ?_) (Nat.le_add_right _ _)
        exact (List.countP_eq_length.mpr fun a ha => decide_eq_true (hpre a ha c hc)).symm

/-- The search finds the first `n`, or fewer. -/
theorem take_takeWhile {r : α → α → Prop} [DecidableRel r] (hasymm : ∀ a b, r a b → ¬ r b a)
    {p : α → Bool} {l : List α} (hl : l.Pairwise r) (n : ℕ) :
    (NotCut r p l n ∧ (l.takeWhile p).take n = (l.filter p).take n) ∨
      (¬ NotCut r p l n ∧ ((l.takeWhile p).take n).length < ((l.filter p).take n).length) := by
  rw [notCut_iff hasymm hl]
  by_cases hle : min n (l.filter p).length ≤ (l.takeWhile p).length
  · refine .inl ⟨hle, ?_⟩
    rcases takeWhile_cases p l with hall | ⟨b, post, -, -, hfilter⟩
    · have hp : ∀ a ∈ l, p a = true := fun a ha => List.mem_takeWhile_imp (by rwa [hall])
      rw [hall, List.filter_eq_self.mpr hp]
    · have hlength : (l.filter p).length = (l.takeWhile p).length + (post.filter p).length := by
        rw [hfilter, List.length_append]
      rw [hfilter, List.take_append]
      rcases le_or_gt n (l.takeWhile p).length with hn | hn
      · rw [Nat.sub_eq_zero_of_le hn, List.take_zero, List.append_nil]
      · rw [List.length_eq_zero_iff.mp (show (post.filter p).length = 0 by omega), List.take_nil,
          List.append_nil]
  · refine .inr ⟨hle, ?_⟩
    rw [List.length_take, List.length_take]
    omega

end Ranking
