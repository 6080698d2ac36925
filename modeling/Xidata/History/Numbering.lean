import Mathlib.Data.List.Induction
import Xidata.History.Plugin

/-!
The numbers of the rows of an account.  The next number is found from the row before the
position of the next name, which is the right one unless there is no next name or no row
at all.
-/

namespace Xidata.History

open Eosiolib (AccountName)

/-- The rows of each account are numbered from zero, in the order of its list. -/
def Holds (t : OrderedTable (AccountName ×ₗ ℤ) UInt64) (hist : AccountName → List UInt64) : Prop :=
  ∀ a k g, t.find (toLex (a, k)) = some g ↔ ∃ i : ℕ, k = i ∧ (hist a)[i]? = some g

/-- The name that no other follows. -/
def maxName : AccountName := 0xffffffffffffffff

theorem lt_succ_of_ne_maxName {n : AccountName} (h : n ≠ maxName) : n < n + 1 := by
  have hne : n.toNat ≠ 2 ^ 64 - 1 := fun heq => h (UInt64.toNat_inj.mp heq)
  have hlt := n.toNat_lt
  rw [UInt64.lt_iff_toNat_lt, UInt64.toNat_add, UInt64.toNat_one, Nat.mod_eq_of_lt (by omega)]
  omega

theorem lt_maxName_of_ne {n : AccountName} (h : n ≠ maxName) : n < maxName := by
  have hne : n.toNat ≠ 2 ^ 64 - 1 := fun heq => h (UInt64.toNat_inj.mp heq)
  have hlt := n.toNat_lt
  have hmax : maxName.toNat = 2 ^ 64 - 1 := rfl
  rw [UInt64.lt_iff_toNat_lt, hmax]
  omega

theorem le_maxName (n : AccountName) : n ≤ maxName := by
  by_cases h : n = maxName
  · exact h.le
  · exact (lt_maxName_of_ne h).le

theorem le_of_lt_succ {a n : AccountName} (h : a < n + 1) : a ≤ n := by
  rw [UInt64.lt_iff_toNat_lt, UInt64.toNat_add, UInt64.toNat_one] at h
  rw [UInt64.le_iff_toNat_le]
  have hmod := Nat.mod_le (n.toNat + 1) (2 ^ 64)
  omega

section StepBack

variable {t : OrderedTable (AccountName ×ₗ ℤ) UInt64} {hist : AccountName → List UInt64}
variable {n : AccountName} {mine : List UInt64}

/-- The rows of an account are numbered from zero, in the order of its list, and no account has
a row with a negative number. -/
structure HistoryOf (t : OrderedTable (AccountName ×ₗ ℤ) UInt64) (n : AccountName)
    (mine : List UInt64) : Prop where
  rows : ∀ k g, t.find (toLex (n, k)) = some g ↔ ∃ i : ℕ, k = i ∧ mine[i]? = some g
  nonneg : ∀ a k g, t.find (toLex (a, k)) = some g → 0 ≤ k

theorem HistoryOf.lt_length (h : HistoryOf t n mine) {k : ℤ} {g : UInt64}
    (hrow : t.find (toLex (n, k)) = some g) : k < mine.length := by
  obtain ⟨i, rfl, hi⟩ := (h.rows k g).mp hrow
  obtain ⟨hlt, -⟩ := List.getElem?_eq_some_iff.mp hi
  exact Int.ofNat_lt.mpr hlt

theorem HistoryOf.exists_row (h : HistoryOf t n mine) {i : ℕ} (hi : i < mine.length) :
    ∃ g, t.find (toLex (n, (i : ℤ))) = some g :=
  ⟨mine[i], (h.rows i _).mpr ⟨i, rfl, List.getElem?_eq_getElem hi⟩⟩

theorem Holds.historyOf (h : Holds t hist) (n : AccountName) : HistoryOf t n (hist n) where
  rows := h n
  nonneg a k g hrow := by
    obtain ⟨i, rfl, -⟩ := (h a k g).mp hrow
    exact Int.natCast_nonneg i

theorem Holds.lt_length (h : Holds t hist) {a : AccountName} {k : ℤ} {g : UInt64}
    (hrow : t.find (toLex (a, k)) = some g) : 0 ≤ k ∧ k < (hist a).length :=
  ⟨(h.historyOf a).nonneg a k g hrow, (h.historyOf a).lt_length hrow⟩

theorem Holds.exists_row (h : Holds t hist) {a : AccountName} {i : ℕ} (hi : i < (hist a).length) :
    ∃ g, t.find (toLex (a, (i : ℤ))) = some g := (h.historyOf a).exists_row hi

theorem Holds.rows_eq_nil (h : Holds t hist) : t.rows = [] ↔ ∀ a, hist a = [] := by
  constructor
  · intro hrows a
    by_contra hne
    obtain ⟨g, hg⟩ := h.exists_row (List.length_pos_iff.mpr hne)
    rw [OrderedTable.find_eq_some, hrows] at hg
    cases hg
  · intro hempty
    refine List.eq_nil_iff_forall_not_mem.mpr fun p hp => ?_
    have hrow : t.find (toLex (ofLex p.1)) = some p.2 := OrderedTable.find_eq_some.mpr hp
    obtain ⟨hpos, hlt⟩ := h.lt_length hrow
    rw [hempty] at hlt
    exact absurd (hpos.trans_lt hlt) (lt_irrefl 0)

/-- The row that is stepped back to is one of the table, and there is one unless it is empty. -/
theorem find_of_stepBack {q : (AccountName ×ₗ ℤ) × UInt64} (h : stepBack t n = some q) :
    t.find q.1 = some q.2 := by
  obtain hlast | ⟨-, hfirst⟩ := Option.or_eq_some_iff.mp h
  · exact OrderedTable.find_of_last hlast
  · exact OrderedTable.find_of_first hfirst

theorem exists_stepBack (n : AccountName) (hrows : t.rows ≠ []) : ∃ q, stepBack t n = some q := by
  unfold stepBack
  cases t.last fun k => k < toLex (n + 1, 0) with
  | some q => exact ⟨q, rfl⟩
  | none => exact OrderedTable.exists_first hrows

/-- An account without rows is not stepped back to. -/
theorem HistoryOf.stepBack_of_nil (h : HistoryOf t n []) {a : AccountName} {k : ℤ} {g : UInt64}
    (hback : stepBack t n = some (toLex (a, k), g)) : a ≠ n := by
  rintro rfl
  have hlt : k < (([] : List UInt64).length : ℤ) := h.lt_length (find_of_stepBack hback)
  exact absurd hlt (not_lt_of_ge (h.nonneg a k g (find_of_stepBack hback)))

/-- The position that is stepped back from has all rows of the account before it, and none
of the names that follow. -/
theorem HistoryOf.stepBack_of_ne (h : HistoryOf t n mine) (hn : n ≠ maxName) (hmine : mine ≠ []) :
    ∃ g, stepBack t n = some (toLex (n, (mine.length : ℤ) - 1), g) := by
  have hbefore : ∀ k : ℤ, toLex (n, k) < toLex (n + 1, 0) := fun k =>
    Prod.Lex.toLex_lt_toLex.mpr (.inl (lt_succ_of_ne_maxName hn))
  have hlength : 0 < mine.length := List.length_pos_iff.mpr hmine
  obtain ⟨g', hg'⟩ := h.exists_row (Nat.sub_lt hlength Nat.one_pos)
  unfold stepBack
  cases hlast : t.last fun k => k < toLex (n + 1, 0) with
  | none => exact absurd (decide_eq_true (hbefore _)) (OrderedTable.not_of_last_eq_none hlast hg')
  | some q =>
      obtain ⟨⟨a, k⟩, g⟩ := q
      have hrow : t.find (toLex (a, k)) = some g := OrderedTable.find_of_last hlast
      have hpos : 0 ≤ k := h.nonneg a k g hrow
      have hpos' := OrderedTable.pos_of_last hlast
      have hlt : toLex (a, k) < toLex (n + 1, 0) := of_decide_eq_true hpos'
      have hle := OrderedTable.le_of_last_of hlast hg' (decide_eq_true (hbefore _))
      have hsame : a = n := by
        obtain hlt | ⟨-, hneg⟩ := Prod.Lex.toLex_lt_toLex.mp hlt
        · obtain hgt | ⟨heq, -⟩ := Prod.Lex.toLex_le_toLex.mp hle
          · exact absurd (le_of_lt_succ hlt) (not_le_of_gt hgt)
          · exact heq.symm
        · exact absurd hneg (not_lt_of_ge hpos)
      subst hsame
      have hk : k = (mine.length : ℤ) - 1 := by
        have hlt' := h.lt_length hrow
        obtain hgt | ⟨-, hle'⟩ := Prod.Lex.toLex_le_toLex.mp hle
        · exact absurd hgt (lt_irrefl a)
        · dsimp only at hle'
          omega
      rw [hk]
      exact ⟨g, rfl⟩

/-- Nothing stands before the position of the name that follows the largest one, and the first
row of the index is read. -/
theorem stepBack_maxName_eq (hpos : ∀ a k g, t.find (toLex (a, k)) = some g → 0 ≤ k) :
    stepBack t maxName = t.first fun _ => true := by
  have hlast : t.last (fun k => k < toLex (maxName + 1, 0)) = none := by
    cases hlast : t.last (fun k => k < toLex (maxName + 1, 0)) with
    | none => rfl
    | some q =>
        obtain ⟨⟨a, k⟩, g⟩ := q
        have hpos' := OrderedTable.pos_of_last hlast
        have hlt : toLex (a, k) < toLex (maxName + 1, 0) := of_decide_eq_true hpos'
        obtain hlt | ⟨-, hneg⟩ := Prod.Lex.toLex_lt_toLex.mp hlt
        · exact absurd hlt UInt64.not_lt_zero
        · exact absurd hneg (not_lt_of_ge (hpos a k g (OrderedTable.find_of_last hlast)))
  rw [stepBack, hlast, Option.none_or]

/-- No account but `n` has a row. -/
def Alone (t : OrderedTable (AccountName ×ₗ ℤ) UInt64) (n : AccountName) : Prop :=
  ∀ a k g, t.find (toLex (a, k)) = some g → a = n

/-- A row of the largest name is the first of the index only where no other account has rows,
and then it is the first of its account. -/
theorem HistoryOf.stepBack_maxName (h : HistoryOf t maxName mine) {a : AccountName} {k : ℤ}
    {g : UInt64} (hback : stepBack t maxName = some (toLex (a, k), g)) :
    (a = maxName ↔ Alone t maxName) ∧ (a = maxName → k = 0) := by
  have hrow : t.find (toLex (a, k)) = some g := find_of_stepBack hback
  rw [stepBack_maxName_eq h.nonneg] at hback
  have hleast : ∀ b j g', t.find (toLex (b, j)) = some g' → toLex (a, k) ≤ toLex (b, j) :=
    fun b j g' hg' => OrderedTable.le_of_first_of hback hg' rfl
  refine ⟨⟨fun ha b j g' hg' => ?_, fun halone => halone a k g hrow⟩, ?_⟩
  · subst ha
    obtain hlt | ⟨heq, -⟩ := Prod.Lex.toLex_le_toLex.mp (hleast b j g' hg')
    · exact absurd hlt (not_lt_of_ge (le_maxName b))
    · exact heq.symm
  · rintro rfl
    have hpos : 0 ≤ k := h.nonneg _ _ _ hrow
    have hlt := h.lt_length hrow
    obtain ⟨g', hg'⟩ := h.exists_row (i := 0) (by omega)
    obtain hgt | ⟨-, hle⟩ := Prod.Lex.toLex_le_toLex.mp (hleast _ _ _ hg')
    · exact absurd hgt (lt_irrefl _)
    · exact le_antisymm hle hpos

theorem Holds.stepBack_of_ne (h : Holds t hist) (hn : n ≠ maxName) (hrows : t.rows ≠ []) :
    ∃ a k g, stepBack t n = some (toLex (a, k), g) ∧
      (if a = n then k + 1 else 0) = ((hist n).length : ℤ) := by
  by_cases hnone : hist n = []
  · obtain ⟨⟨⟨a, k⟩, g⟩, hback⟩ := exists_stepBack n hrows
    have hne : a ≠ n := (hnone ▸ h.historyOf n : HistoryOf t n []).stepBack_of_nil hback
    exact ⟨a, k, g, hback, by rw [if_neg hne, hnone]; rfl⟩
  · obtain ⟨g, hback⟩ := (h.historyOf n).stepBack_of_ne hn hnone
    exact ⟨n, _, g, hback, by rw [if_pos rfl]; omega⟩

theorem Holds.stepBack_maxName (h : Holds t hist) (hrows : t.rows ≠ []) :
    ∃ a k g, stepBack t maxName = some (toLex (a, k), g) ∧
      (a = maxName ∧ k = 0 ∧ (∀ b, b ≠ maxName → hist b = []) ∨
        a ≠ maxName ∧ ∃ b, b ≠ maxName ∧ hist b ≠ []) := by
  obtain ⟨⟨⟨a, k⟩, g⟩, hback⟩ := exists_stepBack maxName hrows
  obtain ⟨halone, hzero⟩ := (h.historyOf maxName).stepBack_maxName hback
  refine ⟨a, k, g, hback, ?_⟩
  by_cases ha : a = maxName
  · refine .inl ⟨ha, hzero ha, fun b hb => ?_⟩
    by_contra hsome
    obtain ⟨g', hg'⟩ := h.exists_row (List.length_pos_iff.mpr hsome)
    exact hb (halone.mp ha b _ g' hg')
  · refine .inr ⟨ha, a, ha, fun hnone => ?_⟩
    obtain ⟨hpos, hlt⟩ := h.lt_length (find_of_stepBack hback)
    rw [hnone] at hlt
    exact absurd (hpos.trans_lt hlt) (lt_irrefl 0)

end StepBack

/-! ### One row -/

/-- The number that the next row of `n` gets is the right one. -/
structure NextRight (ext : Externals) (hist : AccountName → List UInt64) (n : AccountName) :
    Prop where
  first : (∀ a, hist a = []) → ext.pastEnd.1 = n → ext.pastEnd.2 = -1
  last : n = maxName →
    hist maxName = [] ∨ (hist maxName).length = 1 ∧ ∀ b, b ≠ maxName → hist b = []

section Record

variable {ext : Externals} {hist : AccountName → List UInt64} {r : Recorded} {n : AccountName}

/-- The number of the next row of `n`. -/
def nextNumber (ext : Externals) (t : OrderedTable (AccountName ×ₗ ℤ) UInt64) (n : AccountName) :
    ℤ :=
  let row := ((stepBack t n).map fun p => ofLex p.1).getD ext.pastEnd
  if row.1 = n then row.2 + 1 else 0

theorem stepBack_eq_none {t : OrderedTable (AccountName ×ₗ ℤ) UInt64} :
    stepBack t n = none ↔ t.rows = [] := by
  constructor
  · intro hnone
    by_contra hrows
    obtain ⟨q, hfirst⟩ := OrderedTable.exists_first hrows
    rw [stepBack, Option.or_eq_none_iff, hfirst] at hnone
    cases hnone.2
  · intro hrows
    simp [stepBack, OrderedTable.last, OrderedTable.first, hrows]

theorem Holds.nextNumber_of_empty (h : Holds r.accountHistory hist) (hempty : ∀ a, hist a = []) :
    nextNumber ext r.accountHistory n =
      if ext.pastEnd.1 = n then ext.pastEnd.2 + 1 else 0 := by
  rw [nextNumber, stepBack_eq_none.mpr (h.rows_eq_nil.mpr hempty)]
  rfl

theorem Holds.nextNumber_eq_iff (h : Holds r.accountHistory hist) :
    nextNumber ext r.accountHistory n = (hist n).length ↔ NextRight ext hist n := by
  by_cases hempty : ∀ a, hist a = []
  · rw [h.nextNumber_of_empty hempty, hempty n]
    constructor
    · intro hnumber
      refine ⟨fun _ heq => ?_, fun _ => .inl (hempty maxName)⟩
      rw [if_pos heq, List.length_nil] at hnumber
      omega
    · intro hnext
      split
      · rename_i heq
        rw [hnext.first hempty heq]
        rfl
      · rfl
  have hrows : r.accountHistory.rows ≠ [] := fun hnil => hempty (h.rows_eq_nil.mp hnil)
  by_cases hn : n = maxName
  · subst hn
    obtain ⟨a, k, g, hback, ⟨rfl, rfl, hothers⟩ | ⟨hne, b, hb, hsome⟩⟩ := h.stepBack_maxName hrows
    · have hnumber : nextNumber ext r.accountHistory maxName = 1 := by
        rw [nextNumber, hback]
        rfl
      rw [hnumber]
      constructor
      · exact fun hlen => ⟨fun hnil => absurd hnil hempty, fun _ => .inr ⟨by omega, hothers⟩⟩
      · intro hnext
        obtain hnil | ⟨hlen, -⟩ := hnext.last rfl
        · refine absurd (fun a => ?_) hempty
          by_cases ha : a = maxName
          · exact ha ▸ hnil
          · exact hothers a ha
        · rw [hlen]
          rfl
    · have hnumber : nextNumber ext r.accountHistory maxName = 0 := by
        rw [nextNumber, hback]
        exact if_neg hne
      rw [hnumber]
      constructor
      · intro hlen
        exact ⟨fun hnil => absurd hnil hempty, fun _ => .inl (List.length_eq_zero_iff.mp (by omega))⟩
      · intro hnext
        obtain hnil | ⟨-, hothers⟩ := hnext.last rfl
        · rw [hnil]
          rfl
        · exact absurd (hothers b hb) hsome
  · obtain ⟨a, k, g, hback, hnumber⟩ := h.stepBack_of_ne hn hrows
    refine iff_of_true ?_ ⟨fun hnil => absurd hnil hempty, fun heq => absurd heq hn⟩
    rw [nextNumber, hback]
    exact hnumber

theorem recordAccountAction_cases (ext : Externals) (r : Recorded) (n : AccountName) (g : UInt64) :
    ∃ stray, r.strayReads ≤ stray ∧ (r.accountHistory.rows = [] → r.strayReads < stray) ∧
      recordAccountAction ext r n g =
        if (r.accountHistory.find (toLex (n, nextNumber ext r.accountHistory n))).isSome then
          .error (.accountHistory, { r with strayReads := stray })
        else .ok { r with
          strayReads := stray
          accountHistory :=
            r.accountHistory.set (toLex (n, nextNumber ext r.accountHistory n)) g } := by
  cases hback : stepBack r.accountHistory n with
  | none =>
      refine ⟨r.strayReads + 1, Nat.le_succ _, fun _ => Nat.lt_succ_self _, ?_⟩
      rw [recordAccountAction, nextNumber, hback]
      rfl
  | some p =>
      refine ⟨r.strayReads, le_rfl, fun hnil => ?_, ?_⟩
      · rw [stepBack_eq_none.mpr hnil] at hback
        cases hback
      · rw [recordAccountAction, nextNumber, hback]
        rfl

/-- The history of an account gets one more row. -/
theorem Holds.set (h : Holds r.accountHistory hist) (g : UInt64) :
    Holds (r.accountHistory.set (toLex (n, ((hist n).length : ℤ))) g)
      (Function.update hist n (hist n ++ [g])) := by
  intro a k g'
  by_cases ha : a = n
  · subst ha
    rw [Function.update_self]
    by_cases hk : k = (hist a).length
    · subst hk
      rw [OrderedTable.find_set_self]
      constructor
      · exact fun hg => ⟨(hist a).length, rfl, by rw [List.getElem?_concat_length, hg]⟩
      · rintro ⟨i, hi, hg⟩
        rwa [← Int.ofNat_inj.mp hi, List.getElem?_concat_length] at hg
    · have hne : toLex (a, k) ≠ toLex (a, ((hist a).length : ℤ)) := fun heq =>
        hk (congrArg (fun p => (ofLex p).2) heq)
      rw [OrderedTable.find_set_of_ne _ hne, h a k g']
      refine exists_congr fun i => and_congr_right fun hi => ?_
      have hlen : i ≠ (hist a).length := fun heq => hk (heq ▸ hi)
      by_cases hlt : i < (hist a).length
      · rw [List.getElem?_append_left hlt]
      · rw [List.getElem?_eq_none (by omega), List.getElem?_eq_none]
        rw [List.length_append, List.length_singleton]
        omega
  · rw [Function.update_of_ne ha, OrderedTable.find_set_of_ne, h a k g']
    exact fun heq => ha (congrArg (fun p => (ofLex p).1) heq)

theorem Holds.find_eq_none (h : Holds r.accountHistory hist) {k : ℤ} (hk : (hist n).length ≤ k) :
    r.accountHistory.find (toLex (n, k)) = none := by
  rw [Option.eq_none_iff_forall_ne_some]
  intro g hg
  exact absurd (h.lt_length hg).2 (not_lt_of_ge hk)

/-- With the right number, the row is made. -/
theorem Holds.record_right (h : Holds r.accountHistory hist) (hnext : NextRight ext hist n)
    (g : UInt64) : ∃ r', recordAccountAction ext r n g = .ok r' ∧
      Holds r'.accountHistory (Function.update hist n (hist n ++ [g])) ∧
      r'.actionHistory = r.actionHistory := by
  obtain ⟨stray, -, -, heq⟩ := recordAccountAction_cases ext r n g
  rw [h.nextNumber_eq_iff.mpr hnext, h.find_eq_none le_rfl, Option.isSome_none,
    if_neg Bool.false_ne_true] at heq
  exact ⟨_, heq, h.set g, rfl⟩

/-- With a wrong number there is such a row already, or it is the first row of all and not
numbered zero. -/
theorem Holds.record_wrong (h : Holds r.accountHistory hist) (hnext : ¬ NextRight ext hist n)
    (g : UInt64) : (∃ e, recordAccountAction ext r n g = .error e) ∨
      ∃ r' k, recordAccountAction ext r n g = .ok r' ∧ (∀ a, hist a = []) ∧ k ≠ 0 ∧
        r'.accountHistory.find (toLex (n, k)) = some g := by
  have hnumber := mt h.nextNumber_eq_iff.mp hnext
  obtain ⟨stray, -, -, heq⟩ := recordAccountAction_cases ext r n g
  by_cases hfound : (r.accountHistory.find
      (toLex (n, nextNumber ext r.accountHistory n))).isSome = true
  · rw [if_pos hfound] at heq
    exact .inl ⟨_, heq⟩
  · rw [if_neg hfound] at heq
    have hempty : ∀ a, hist a = [] := by
      by_contra hsome
      refine hnext ⟨fun hnil => absurd hnil hsome, fun hn => ?_⟩
      by_contra hwrong
      subst hn
      -- The number is zero or one, and the account has more rows than this.
      obtain ⟨a, k, g', hback, hcases⟩ :=
        h.stepBack_maxName fun hnil => hsome (h.rows_eq_nil.mp hnil)
      have hpos : 0 < (hist maxName).length :=
        List.length_pos_iff.mpr (not_or.mp hwrong).1
      obtain ⟨i, hi, hlt⟩ : ∃ i : ℕ, nextNumber ext r.accountHistory maxName = i ∧
          i < (hist maxName).length := by
        rw [nextNumber, hback] at hnumber ⊢
        obtain ⟨rfl, rfl, -⟩ | ⟨hne, -⟩ := hcases
        · refine ⟨1, rfl, ?_⟩
          have hne : ((hist maxName).length : ℤ) ≠ 1 := fun hone => hnumber hone.symm
          omega
        · exact ⟨0, if_neg hne, hpos⟩
      obtain ⟨row, hrow⟩ := h.exists_row hlt
      rw [hi, hrow] at hfound
      exact hfound rfl
    refine .inr ⟨_, nextNumber ext r.accountHistory n, heq, hempty, ?_,
      OrderedTable.find_set_self _ _ _⟩
    rwa [hempty n] at hnumber

/-! ### The rows of one action -/

/-- The numbers that the accounts of an action get are the right ones. -/
structure NextAll (ext : Externals) (hist : AccountName → List UInt64)
    (accounts : List AccountName) : Prop where
  first : (∀ a, hist a = []) → accounts.head? = some ext.pastEnd.1 → ext.pastEnd.2 = -1
  last : maxName ∈ accounts → hist maxName = [] ∨
    (hist maxName).length = 1 ∧ (∀ b, b ≠ maxName → hist b = []) ∧ accounts = [maxName]

/-- One more row for each of the accounts. -/
def bump (hist : AccountName → List UInt64) (accounts : List AccountName) (g : UInt64) :
    AccountName → List UInt64 := fun a => if a ∈ accounts then hist a ++ [g] else hist a

variable {accounts : List AccountName} {g : UInt64}

theorem bump_cons (hn : n ∉ accounts) :
    bump (Function.update hist n (hist n ++ [g])) accounts g = bump hist (n :: accounts) g := by
  funext a
  unfold bump
  by_cases ha : a = n
  · rw [ha, if_neg hn, if_pos List.mem_cons_self, Function.update_self]
  · simp only [List.mem_cons, ha, false_or, Function.update_of_ne ha]

theorem NextAll.head (h : NextAll ext hist (n :: accounts)) : NextRight ext hist n where
  first hempty heq := h.first hempty (by rw [List.head?_cons, heq])
  last hn := by
    obtain hnil | ⟨hlen, hothers, -⟩ := h.last (hn ▸ List.mem_cons_self)
    · exact .inl hnil
    · exact .inr ⟨hlen, hothers⟩

theorem update_ne_nil (hist : AccountName → List UInt64) (n : AccountName) (g : UInt64) :
    ¬ ∀ a, Function.update hist n (hist n ++ [g]) a = [] := fun hempty => by
  have hself := hempty n
  rw [Function.update_self] at hself
  exact List.append_ne_nil_of_right_ne_nil _ (List.cons_ne_nil g []) hself

/-- After the first account of an action, the others get the right numbers if and only if all
of them do. -/
theorem NextRight.tail_iff (h : NextRight ext hist n)
    (hsorted : (n :: accounts).Pairwise (· < ·)) :
    NextAll ext (Function.update hist n (hist n ++ [g])) accounts ↔
      NextAll ext hist (n :: accounts) := by
  obtain ⟨hn, -⟩ := List.pairwise_cons.mp hsorted
  have hne : maxName ∈ accounts → n ≠ maxName := fun hmem => (hn maxName hmem).ne
  constructor
  · intro htail
    refine ⟨fun hempty hhead => ?_, fun hmem => ?_⟩
    · rw [List.head?_cons, Option.some.injEq] at hhead
      exact h.first hempty hhead.symm
    · obtain heq | hmem := List.mem_cons.mp hmem
      · obtain hnil | ⟨hlen, hothers⟩ := h.last heq.symm
        · exact .inl hnil
        · refine .inr ⟨hlen, hothers, ?_⟩
          -- Nothing comes after the largest name.
          have hnil : accounts = [] := List.eq_nil_iff_forall_not_mem.mpr fun b hb => by
            have hlt := heq ▸ hn b hb
            exact absurd hlt (not_lt_of_ge (le_maxName b))
          rw [heq, hnil]
      · obtain hnil | ⟨-, hothers, -⟩ := htail.last hmem
        · rw [Function.update_of_ne (hne hmem).symm] at hnil
          exact .inl hnil
        · have hself := hothers n (hne hmem)
          rw [Function.update_self] at hself
          exact absurd hself (List.append_ne_nil_of_right_ne_nil _ (List.cons_ne_nil g []))
  · intro hall
    refine ⟨fun hempty => absurd hempty (update_ne_nil hist n g), fun hmem => ?_⟩
    obtain hnil | ⟨-, -, hone⟩ := hall.last (List.mem_cons_of_mem n hmem)
    · exact .inl (by rw [Function.update_of_ne (hne hmem).symm, hnil])
    · rw [List.cons.injEq] at hone
      rw [hone.2] at hmem
      cases hmem

/-- With the right numbers, every account of the action gets its row. -/
theorem Holds.record_all (h : Holds r.accountHistory hist) (hsorted : accounts.Pairwise (· < ·))
    (hall : NextAll ext hist accounts) :
    ∃ r', accounts.foldlM (fun r a => recordAccountAction ext r a g) r = .ok r' ∧
      Holds r'.accountHistory (bump hist accounts g) ∧ r'.actionHistory = r.actionHistory := by
  induction accounts generalizing r hist with
  | nil =>
      have hnone : bump hist [] g = hist := funext fun a => if_neg List.not_mem_nil
      exact ⟨r, rfl, hnone.symm ▸ h, rfl⟩
  | cons n accounts ih =>
      obtain ⟨hn, htail⟩ := List.pairwise_cons.mp hsorted
      obtain ⟨r₁, hok, hholds, hactions⟩ := h.record_right hall.head g
      obtain ⟨r₂, hrest, hholds', hactions'⟩ :=
        ih hholds htail ((hall.head.tail_iff hsorted).mpr hall)
      rw [bump_cons fun hmem => lt_irrefl n (hn n hmem)] at hholds'
      refine ⟨r₂, ?_, hholds', hactions'.trans hactions⟩
      rw [List.foldlM_cons, hok]
      exact hrest

theorem find_recordAccountAction {r' : Recorded} {a : AccountName}
    (hok : recordAccountAction ext r a g = .ok r') {k : AccountName ×ₗ ℤ} {g' : UInt64}
    (hk : r.accountHistory.find k = some g') : r'.accountHistory.find k = some g' := by
  obtain ⟨stray, -, -, heq⟩ := recordAccountAction_cases ext r a g
  rw [heq] at hok
  split at hok
  · cases hok
  · rename_i hnone
    cases hok
    rw [OrderedTable.find_set_of_ne, hk]
    rintro rfl
    rw [hk] at hnone
    exact hnone rfl

/-- With a wrong number an exception is thrown, or the rows are not numbered from zero. -/
theorem Holds.not_record_all (h : Holds r.accountHistory hist)
    (hsorted : accounts.Pairwise (· < ·)) (hall : ¬ NextAll ext hist accounts) {r' : Recorded}
    (hok : accounts.foldlM (fun r a => recordAccountAction ext r a g) r = .ok r') :
    ¬ Holds r'.accountHistory (bump hist accounts g) := by
  induction accounts generalizing r hist with
  | nil => exact absurd ⟨fun _ hhead => (nomatch hhead), fun hmem => (nomatch hmem)⟩ hall
  | cons n accounts ih =>
      obtain ⟨hn, htail⟩ := List.pairwise_cons.mp hsorted
      have hmem : n ∉ accounts := fun hmem => lt_irrefl n (hn n hmem)
      rw [List.foldlM_cons, Rollback.bind_eq_ok] at hok
      obtain ⟨r₁, hone, hok⟩ := hok
      by_cases hnext : NextRight ext hist n
      · obtain ⟨r₁', hone', hholds, -⟩ := h.record_right hnext g
        rw [hone] at hone'
        cases hone'
        have hrest := ih hholds htail (fun hrest => hall ((hnext.tail_iff hsorted).mp hrest)) hok
        rwa [bump_cons hmem] at hrest
      · obtain ⟨e, herror⟩ | ⟨r₁', k, hone', hempty, hk, hrow⟩ := h.record_wrong hnext g
        · rw [hone] at herror
          cases herror
        · rw [hone] at hone'
          cases hone'
          have hstays : r'.accountHistory.find (toLex (n, k)) = some g :=
            Rollback.foldlM_induction (I := fun r : Recorded =>
              r.accountHistory.find (toLex (n, k)) = some g)
              (fun _ _ _ _ hrow hok => find_recordAccountAction hok hrow) hrow hok
          intro hholds
          have hlt := hholds.lt_length hstays
          rw [bump, if_pos List.mem_cons_self, hempty n] at hlt
          simp only [List.nil_append, List.length_singleton] at hlt
          omega

end Record

/-! ### Runs -/

/-- What has been recorded of the actions applied so far, and whether a row violated the
unique keys of its table. -/
structure Run where
  recorded : Recorded := {}
  failed : Bool := false

section Runs

variable (cfg : Config) (ext : Externals)

def apply (run : Run) (at_ : AppliedAction) : Run :=
  match recordAction cfg ext run.recorded at_ with
  | .ok r => { run with recorded := r }
  | .error (_, r) => { recorded := r, failed := true }

/-- The actions that the account has in its history, by their global sequence numbers. -/
def concerned (ats : List AppliedAction) (a : AccountName) : List UInt64 :=
  (ats.filter fun at_ => cfg.filter at_ && a ∈ cfg.accountSet at_).map AppliedAction.globalSequence

/-- The rows of each account are numbered from zero in the order of the actions that it has
in its history, whose global sequence numbers increase, each action has its own row, and no
row violated a unique key. -/
structure NumberedBy (ats : List AppliedAction) (run : Run) : Prop where
  rows : Holds run.recorded.accountHistory (concerned cfg ats)
  increasing : ∀ a, (concerned cfg ats a).Pairwise (· < ·)
  actions : ∀ g trxId, run.recorded.actionHistory.find g = some trxId ↔
    ∃ at_ ∈ ats, cfg.filter at_ = true ∧ at_.globalSequence = g ∧ at_.trxId = trxId
  failed : run.failed = false

/-- What the numbers need of an action that is recorded after the actions `ats`. -/
def NumbersAt (ats : List AppliedAction) (at_ : AppliedAction) : Prop :=
  cfg.filter at_ = true → NextAll ext (concerned cfg ats) (cfg.accountSet at_)

variable {cfg ext}

/-! The accounts of an action -/

theorem accountSet_sorted (at_ : AppliedAction) : (cfg.accountSet at_).Pairwise (· < ·) :=
  List.pairwise_map.mpr (OrderedTable.sorted _)

theorem receiver_mem_accountSet (at_ : AppliedAction) : at_.receiver ∈ cfg.accountSet at_ := by
  refine OrderedTable.mem_keys.mpr ⟨(), ?_⟩
  refine List.foldlRecOn
    (motive := fun t : OrderedTable AccountName Unit => t.find at_.receiver = some ()) _ _
    (OrderedTable.find_set_self _ _ _) fun result hresult a _ => ?_
  have hset : (result.set a.actor ()).find at_.receiver = some () := by
    rw [OrderedTable.find_set]
    split
    · rfl
    · exact hresult
  dsimp only
  split
  · split
    · exact hset
    · exact hresult
  · exact hresult

/-! One action -/

variable {ats : List AppliedAction} {run : Run} {at_ : AppliedAction}

theorem concerned_append (hfilter : cfg.filter at_ = true) :
    concerned cfg (ats ++ [at_]) =
      bump (concerned cfg ats) (cfg.accountSet at_) at_.globalSequence := by
  funext a
  unfold concerned bump
  rw [List.filter_append, List.map_append, List.filter_singleton, hfilter, Bool.true_and]
  by_cases ha : a ∈ cfg.accountSet at_
  · rw [if_pos ha, decide_eq_true ha]
    rfl
  · rw [if_neg ha, decide_eq_false ha]
    exact List.append_nil _

theorem concerned_append_of_not (hfilter : ¬ cfg.filter at_ = true) :
    concerned cfg (ats ++ [at_]) = concerned cfg ats := by
  funext a
  unfold concerned
  rw [List.filter_append, List.filter_singleton, Bool.eq_false_iff.mpr hfilter]
  exact congrArg _ (List.append_nil _)

theorem apply_of_not (hfilter : ¬ cfg.filter at_ = true) : apply cfg ext run at_ = run := by
  rw [apply, recordAction, if_neg hfilter]

/-- An action whose sequence number is new is recorded in the rows of its accounts. -/
theorem apply_of_filter (hfilter : cfg.filter at_ = true)
    (hnew : run.recorded.actionHistory.find at_.globalSequence = none) :
    apply cfg ext run at_ =
      match (cfg.accountSet at_).foldlM
          (fun r a => recordAccountAction ext r a at_.globalSequence)
          { run.recorded with
            actionHistory := run.recorded.actionHistory.set at_.globalSequence at_.trxId } with
      | .ok r => { run with recorded := r }
      | .error (_, r) => { recorded := r, failed := true } := by
  rw [apply, recordAction, if_pos hfilter, hnew, Option.isSome_none, if_neg Bool.false_ne_true]

theorem concerned_lt (hseq : ∀ b ∈ ats, b.globalSequence < at_.globalSequence) {a : AccountName}
    {g : UInt64} (hg : g ∈ concerned cfg ats a) : g < at_.globalSequence := by
  obtain ⟨b, hb, rfl⟩ := List.mem_map.mp hg
  exact hseq b (List.mem_filter.mp hb).1

theorem NumberedBy.find_eq_none (h : NumberedBy cfg ats run)
    (hseq : ∀ b ∈ ats, b.globalSequence < at_.globalSequence) :
    run.recorded.actionHistory.find at_.globalSequence = none := by
  rw [Option.eq_none_iff_forall_ne_some]
  intro trxId hfound
  obtain ⟨b, hb, -, heq, -⟩ := (h.actions _ _).mp hfound
  exact lt_irrefl _ (heq ▸ hseq b hb)

/-- The row of an action comes to those of the actions before. -/
theorem NumberedBy.actions_append (h : NumberedBy cfg ats run) (hfilter : cfg.filter at_ = true)
    (hnew : run.recorded.actionHistory.find at_.globalSequence = none) (g : UInt64)
    (trxId : TransactionId) :
    (run.recorded.actionHistory.set at_.globalSequence at_.trxId).find g = some trxId ↔
      ∃ b ∈ ats ++ [at_], cfg.filter b = true ∧ b.globalSequence = g ∧ b.trxId = trxId := by
  simp only [List.mem_append, List.mem_singleton, or_and_right, exists_or, exists_eq_left,
    ← h.actions g trxId, hfilter, true_and]
  by_cases hg : g = at_.globalSequence
  · rw [hg, OrderedTable.find_set_self, hnew]
    simp
  · rw [OrderedTable.find_set_of_ne _ hg]
    simp [Ne.symm hg]

theorem NumberedBy.increasing_append (h : NumberedBy cfg ats run) (hfilter : cfg.filter at_ = true)
    (hseq : ∀ b ∈ ats, b.globalSequence < at_.globalSequence) (a : AccountName) :
    (concerned cfg (ats ++ [at_]) a).Pairwise (· < ·) := by
  rw [concerned_append hfilter, bump]
  split
  · refine List.pairwise_append.mpr ⟨h.increasing a, List.pairwise_singleton _ _, ?_⟩
    intro g hg g' hg'
    rw [List.mem_singleton.mp hg']
    exact concerned_lt hseq hg
  · exact h.increasing a

/-- After an action the rows are still numbered if and only if it gets the right numbers. -/
theorem NumberedBy.apply_iff (h : NumberedBy cfg ats run)
    (hseq : ∀ b ∈ ats, b.globalSequence < at_.globalSequence) :
    NumberedBy cfg (ats ++ [at_]) (apply cfg ext run at_) ↔ NumbersAt cfg ext ats at_ := by
  by_cases hfilter : cfg.filter at_ = true
  · have hnew := h.find_eq_none hseq
    rw [apply_of_filter hfilter hnew]
    by_cases hall : NextAll ext (concerned cfg ats) (cfg.accountSet at_)
    · refine iff_of_true ?_ fun _ => hall
      obtain ⟨r, hok, hholds, hsame⟩ := Holds.record_all (g := at_.globalSequence)
        (r := { run.recorded with
          actionHistory := run.recorded.actionHistory.set at_.globalSequence at_.trxId })
        h.rows (accountSet_sorted at_) hall
      rw [hok]
      refine ⟨(concerned_append hfilter).symm ▸ hholds, h.increasing_append hfilter hseq, ?_, h.failed⟩
      rw [hsame]
      exact h.actions_append hfilter hnew
    · refine iff_of_false (fun hnumbered => ?_) fun hnumbers => hall (hnumbers hfilter)
      cases hfold : (cfg.accountSet at_).foldlM
          (fun r a => recordAccountAction ext r a at_.globalSequence)
          { run.recorded with
            actionHistory := run.recorded.actionHistory.set at_.globalSequence at_.trxId } with
      | error e =>
          rw [hfold] at hnumbered
          cases hnumbered.failed
      | ok r =>
          rw [hfold] at hnumbered
          refine Holds.not_record_all (r := { run.recorded with
            actionHistory := run.recorded.actionHistory.set at_.globalSequence at_.trxId })
            h.rows (accountSet_sorted at_) hall hfold ?_
          rw [← concerned_append hfilter]
          exact hnumbered.rows
  · rw [apply_of_not hfilter]
    refine iff_of_true ⟨?_, ?_, ?_, h.failed⟩ fun hpass => absurd hpass hfilter
    · rw [concerned_append_of_not hfilter]
      exact h.rows
    · rw [concerned_append_of_not hfilter]
      exact h.increasing
    · intro g trxId
      simp [h.actions g trxId, or_and_right, exists_or, hfilter]

variable (cfg ext) in
def numbering (ats : List AppliedAction) : Run := ats.foldl (apply cfg ext) {}

theorem numbering_append : numbering cfg ext (ats ++ [at_]) = apply cfg ext (numbering cfg ext ats) at_ :=
  List.foldl_append

theorem numberedBy_nil : NumberedBy cfg [] {} where
  rows a k g := by
    constructor
    · exact fun h => nomatch h
    · rintro ⟨i, -, hi⟩
      cases hi
  increasing a := List.Pairwise.nil
  actions g trxId := ⟨fun h => (nomatch h), fun ⟨b, hb, _⟩ => (nomatch hb)⟩
  failed := rfl

/-! Reads past the end -/

theorem strayReads_foldlM {accounts : List AccountName} {r : Recorded} {g : UInt64} {k : ℕ}
    (h : k ≤ r.strayReads) :
    k ≤ (left (accounts.foldlM (fun r a => recordAccountAction ext r a g) r)).strayReads := by
  refine left_foldlM (I := fun r : Recorded => k ≤ r.strayReads) (fun r a h => ?_) h
  obtain ⟨stray, hle, -, heq⟩ := recordAccountAction_cases ext r a g
  rw [heq]
  split
  · exact h.trans hle
  · exact h.trans hle

theorem recorded_apply (hfilter : cfg.filter at_ = true)
    (hnew : run.recorded.actionHistory.find at_.globalSequence = none) :
    (apply cfg ext run at_).recorded = left ((cfg.accountSet at_).foldlM
      (fun r a => recordAccountAction ext r a at_.globalSequence)
      { run.recorded with
        actionHistory := run.recorded.actionHistory.set at_.globalSequence at_.trxId }) := by
  rw [apply_of_filter hfilter hnew]
  cases (cfg.accountSet at_).foldlM (fun r a => recordAccountAction ext r a at_.globalSequence)
      { run.recorded with
        actionHistory := run.recorded.actionHistory.set at_.globalSequence at_.trxId } with
  | ok r => rfl
  | error e => rfl

/-- The first action that is recorded reads past the end of the empty index. -/
theorem strayReads_first (hfilter : cfg.filter at_ = true) :
    0 < (apply cfg ext {} at_).recorded.strayReads := by
  rw [recorded_apply hfilter rfl]
  cases haccounts : cfg.accountSet at_ with
  | nil =>
      have hmem : at_.receiver ∈ cfg.accountSet at_ := receiver_mem_accountSet at_
      rw [haccounts] at hmem
      cases hmem
  | cons a accounts =>
      obtain ⟨stray, -, hlt, heq⟩ := recordAccountAction_cases ext
        { actionHistory := OrderedTable.empty.set at_.globalSequence at_.trxId } a at_.globalSequence
      have hpos : 0 < stray := hlt rfl
      rw [List.foldlM_cons, heq]
      split
      · exact hpos
      · exact strayReads_foldlM hpos

theorem numbering_of_not (h : ∀ at_ ∈ ats, ¬ cfg.filter at_ = true) : numbering cfg ext ats = {} := by
  induction ats using List.reverseRecOn with
  | nil => rfl
  | append_singleton ats at_ ih =>
      rw [numbering_append, apply_of_not (h at_ (by simp)), ih fun b hb => h b (by simp [hb])]

/-- The sequence numbers of the actions before one of them are smaller. -/
theorem globalSequence_lt {pre : List AppliedAction}
    (hseq : (ats.map AppliedAction.globalSequence).Pairwise (· < ·)) (hpre : pre ++ [at_] <+: ats) :
    ∀ b ∈ pre, b.globalSequence < at_.globalSequence := fun b hb =>
  (List.pairwise_append.mp ((List.pairwise_map.mp hseq).sublist hpre.sublist)).2.2 b hb at_
    (List.mem_singleton.mpr rfl)

end Runs

/-- For actions with increasing global sequence numbers, recorded from the beginning: no row
past the end of an index is read and the rows of each account are numbered in order, if and
only if nothing is recorded at all.  The rows are numbered in order, if and only if each
action finds the right numbers: what is read past the end at the first one is not the
account of a row with another number than -1, and the largest name is concerned only while it
has no row, or is the only name and has one. -/
theorem numbered_iff (cfg : Config) (ext : Externals) {ats : List AppliedAction}
    (hseq : (ats.map AppliedAction.globalSequence).Pairwise (· < ·)) :
    ((∀ pre, pre <+: ats → NumberedBy cfg pre (numbering cfg ext pre) ∧
        (numbering cfg ext pre).recorded.strayReads = 0) ↔
      ∀ at_ ∈ ats, ¬ cfg.filter at_ = true) ∧
    ((∀ pre, pre <+: ats → NumberedBy cfg pre (numbering cfg ext pre)) ↔
      ∀ pre at_, pre ++ [at_] <+: ats → NumbersAt cfg ext pre at_) := by
  have hnumbered : (∀ pre, pre <+: ats → NumberedBy cfg pre (numbering cfg ext pre)) ↔
      ∀ pre at_, pre ++ [at_] <+: ats → NumbersAt cfg ext pre at_ := by
    constructor
    · intro h pre at_ hpre
      have hbefore := h pre ((List.prefix_append pre [at_]).trans hpre)
      have hafter := h (pre ++ [at_]) hpre
      rw [numbering_append] at hafter
      exact (hbefore.apply_iff (globalSequence_lt hseq hpre)).mp hafter
    · intro h pre
      induction pre using List.reverseRecOn with
      | nil => exact fun _ => numberedBy_nil
      | append_singleton pre at_ ih =>
          intro hpre
          rw [numbering_append]
          exact ((ih ((List.prefix_append pre [at_]).trans hpre)).apply_iff
            (globalSequence_lt hseq hpre)).mpr (h pre at_ hpre)
  refine ⟨⟨fun h at_ hat hfilter => ?_, fun h => ?_⟩, hnumbered⟩
  · obtain ⟨first, hfirst⟩ := Option.isSome_iff_exists.mp
      (List.find?_isSome.mpr ⟨at_, hat, hfilter⟩)
    obtain ⟨hpass, pre, post, rfl, hpre⟩ := List.find?_eq_some_iff_append.mp hfirst
    have hstray := (h (pre ++ [first]) (by simp)).2
    rw [numbering_append, numbering_of_not fun b hb => by simpa using hpre b hb] at hstray
    exact (strayReads_first hpass).ne' hstray
  · have hnone : ∀ pre, pre <+: ats → numbering cfg ext pre = {} := fun pre hpre =>
      numbering_of_not fun b hb => h b (hpre.subset hb)
    refine fun pre hpre => ⟨hnumbered.mpr (fun pre at_ hpre hfilter => ?_) pre hpre, ?_⟩
    · exact absurd hfilter (h at_ (hpre.subset (by simp)))
    · rw [hnone pre hpre]

/-! ### Transactions -/

theorem recorded_onSystemAction (ext : Externals) (h : Tables) (at_ : AppliedAction) :
    (left (h.onSystemAction ext at_)).recorded = h.recorded := by
  have haccounts : ∀ (h' : Tables) accounts name permission, h'.recorded = h.recorded →
      (left (h'.addAccounts accounts name permission)).recorded = h.recorded := by
    intro h' accounts name permission hsame
    refine left_foldlM (I := fun h' : Tables => h'.recorded = h.recorded) (fun h' a hsame => ?_) hsame
    dsimp only
    split <;> exact hsame
  have hkeys : ∀ (h' : Tables) keys name permission, h'.recorded = h.recorded →
      (h'.addKeys keys name permission).recorded = h.recorded := by
    intro h' keys name permission hsame
    exact List.foldlRecOn (motive := fun h' : Tables => h'.recorded = h.recorded) _ _ hsame
      fun _ hsame _ _ => hsame
  unfold Tables.onSystemAction
  split
  · split
    · rfl
    · refine left_bind (I := fun h' : Tables => h'.recorded = h.recorded) ?_ fun h' hsame => ?_
      · exact haccounts _ _ _ _ (hkeys _ _ _ _ rfl)
      · exact haccounts _ _ _ _ (hkeys _ _ _ _ hsame)
  · split
    · split
      · rfl
      · exact haccounts _ _ _ _ (hkeys _ _ _ _ rfl)
    · split
      · split <;> rfl
      · rfl

theorem recorded_onAction (cfg : Config) (ext : Externals) (h : Tables) (at_ : AppliedAction) :
    (left (h.onAction cfg ext at_)).recorded =
      (apply cfg ext { recorded := h.recorded } at_).recorded := by
  unfold Tables.onAction apply
  cases recordAction cfg ext h.recorded at_ with
  | error e => rfl
  | ok r =>
      dsimp only
      split
      · exact recorded_onSystemAction ext _ at_
      · rfl

theorem apply_of_onAction {cfg : Config} {ext : Externals} {h h' : Tables} {at_ : AppliedAction}
    (hok : h.onAction cfg ext at_ = .ok h') :
    apply cfg ext { recorded := h.recorded } at_ = { recorded := h'.recorded } := by
  have hrecorded := recorded_onAction cfg ext h at_
  rw [hok] at hrecorded
  unfold Tables.onAction at hok
  unfold apply at hrecorded ⊢
  cases hrecord : recordAction cfg ext h.recorded at_ with
  | error e =>
      rw [hrecord] at hok
      cases hok
  | ok r =>
      rw [hrecord] at hrecorded
      exact congrArg (fun r => ({ recorded := r } : Run)) hrecorded.symm

/-- A transaction records its actions in their order, up to the first exception. -/
theorem recorded_onAppliedTransaction (cfg : Config) (ext : Externals) (h : Tables)
    (traces : List ActionTrace) : ∃ pre, pre <+: allActions traces ∧
      (h.onAppliedTransaction cfg ext traces).recorded =
        (pre.foldl (apply cfg ext) { recorded := h.recorded }).recorded := by
  rw [Tables.onAppliedTransaction, Tables.onActionTraces_eq]
  generalize allActions traces = ats
  induction ats generalizing h with
  | nil => exact ⟨[], List.prefix_rfl, rfl⟩
  | cons at_ ats ih =>
      rw [List.foldlM_cons]
      cases hact : h.onAction cfg ext at_ with
      | error e =>
          have hrecorded := recorded_onAction cfg ext h at_
          rw [hact] at hrecorded
          exact ⟨[at_], ⟨ats, rfl⟩, hrecorded⟩
      | ok h' =>
          obtain ⟨pre, hpre, hrecorded⟩ := ih h'
          refine ⟨at_ :: pre, List.cons_prefix_cons.mpr ⟨rfl, hpre⟩, ?_⟩
          rw [List.foldl_cons, apply_of_onAction hact]
          exact hrecorded

/-! ### Some actions -/

/-- An action of an account for itself. -/
def actionOf (receiver : AccountName) (globalSequence : UInt64) : AppliedAction where
  receiver := receiver
  globalSequence := globalSequence
  act := { account := receiver, name := 1, authorization := [⟨receiver, 1⟩] }

/-- Every action is recorded. -/
def recordAll : Config where
  bypassFilter := true

/-- What is read past the end of an index is zero. -/
def zeroPastEnd : Externals where
  dataAsNewAccount _ := none
  dataAsUpdateAuth _ := none
  dataAsDeleteAuth _ := none

theorem numbered_two : NumberedBy recordAll [actionOf 5 1, actionOf 5 2]
    (numbering recordAll zeroPastEnd [actionOf 5 1, actionOf 5 2]) := by
  have haccounts : ∀ at_ ∈ [actionOf 5 1, actionOf 5 2], recordAll.accountSet at_ = [5] := by
    decide +kernel
  refine (numbered_iff recordAll zeroPastEnd (by decide)).2.mpr (fun pre at_ hpre _ => ?_) _
    List.prefix_rfl
  have hat : at_ ∈ [actionOf 5 1, actionOf 5 2] := hpre.subset (by simp)
  rw [haccounts at_ hat]
  exact ⟨fun _ hhead => absurd hhead (by decide), fun hmem => absurd hmem (by decide)⟩

/-- The first action that is recorded reads past the end, and the second one of the largest
name gets the number of the first. -/
theorem numbering_fails :
    (numbering recordAll zeroPastEnd [actionOf 5 1]).recorded.strayReads = 1 ∧
      ¬ NumberedBy recordAll [actionOf 5 1, actionOf maxName 2, actionOf maxName 3]
        (numbering recordAll zeroPastEnd [actionOf 5 1, actionOf maxName 2, actionOf maxName 3]) := by
  refine ⟨by decide +kernel, fun h => ?_⟩
  have hfailed : (numbering recordAll zeroPastEnd
      [actionOf 5 1, actionOf maxName 2, actionOf maxName 3]).failed = true := by decide +kernel
  exact absurd (hfailed.symm.trans h.failed) (by decide)

end Xidata.History
