import Xidata.History.Numbering
import Xidata.History.Transactions

/-!
Paging through the actions of an account.  The range of a query is given by a position and a
count from it, forwards or backwards; the position that stands for the end is looked for by
stepping back from the name that follows.  The range includes both of its ends.
-/

namespace Xidata.History

open Eosiolib (AccountName)

structure GetActionsParams where
  accountName : AccountName
  pos : Option Int32 := none
  offset : Option Int32 := none

structure OrderedActionResult (V : Type) where
  globalActionSeq : UInt64
  accountActionSeq : ℤ
  blockNum : UInt32
  blockTime : UInt32
  actionTrace : V

structure GetActionsResult (V : Type) where
  actions : List (OrderedActionResult V)
  lastIrreversibleBlock : UInt32
  timeLimitExceededError : Option Bool := none

/-- Why no actions are returned; `thrown` stands for the exceptions from outside, and for an
action that is not there. -/
inductive ActionsFailure
  | plugin | thrown
  deriving DecidableEq

abbrev AccountRow := (AccountName ×ₗ ℤ) × UInt64

section Query

variable {V : Type} (ext : Externals) (chain : ChainView V) (index : ActionHistoryIndex)
variable (t : OrderedTable (AccountName ×ₗ ℤ) UInt64)

/-- The position of the end is that after the row which is stepped back to, if it is one of the
account. -/
def position (n : AccountName) (pos : Int32) : Int32 :=
  let pos :=
    if pos = -1 then
      let row := ((stepBack t n).map fun q => ofLex q.1).getD ext.pastEnd
      if row.1 = n then Int32.ofInt (row.2 + 1) else pos
    else pos
  if pos = -1 then 0xfffffff else pos

def bounds (pos offset : Int32) : Int32 × Int32 :=
  if 0 < offset then (pos, pos + offset)
  else
    let start := pos + offset
    (if pos < start then 0 else start, pos)

def pageBounds (p : GetActionsParams) : Int32 × Int32 :=
  bounds (position ext t p.accountName (p.pos.getD (-1))) (p.offset.getD (-20))

/-- The rows from the lower bound of the start to the upper bound of the end. -/
def rowsBetween (n : AccountName) (start end_ : Int32) : List AccountRow :=
  let startItr := IndexRead.lowerBound (fun q => q.1 < toLex (n, start.toInt)) t.rows
  let endItr := IndexRead.lowerBound (fun q => q.1 ≤ toLex (n, end_.toInt)) t.rows
  (t.rows.drop startItr).take (endItr - startItr)

/-- The action of a row. -/
def actionResult (number : ℤ) (globalSequence : UInt64) : Option (OrderedActionResult V) := do
  let a ← index.rows.find? fun a => a.actionSequenceNum = globalSequence
  let trace ← chain.showTrace a.packedActionTrace
  pure ⟨globalSequence, number, a.blockNum, a.blockTime, trace⟩

/-- The loop over the rows, which ends early when the clock says after one of them that it
takes too long. -/
def collect (late : ℕ → Bool) : ℕ → List AccountRow →
    Option (List (OrderedActionResult V) × Option Bool)
  | _, [] => some ([], none)
  | i, row :: rows => do
    let result ← actionResult chain index (ofLex row.1).2 row.2
    if late i then pure ([result], some true)
    else
      let rest ← collect late (i + 1) rows
      pure (result :: rest.1, rest.2)

def getActions (late : ℕ → Bool) (p : GetActionsParams) :
    Except ActionsFailure (GetActionsResult V) :=
  let range := pageBounds ext t p
  if range.2 < range.1 then .error .plugin
  else
    (collect chain index late 0 (rowsBetween t p.accountName range.1 range.2)).elim
      (.error .thrown) fun r =>
        .ok { actions := r.1, lastIrreversibleBlock := chain.lastIrreversibleBlockNum,
              timeLimitExceededError := r.2 }

/-- The rows that a query reads when it is not late: the one that is stepped back to, which is
none where the index is empty, and those of the loop. -/
def rowsRead (p : GetActionsParams) : List (Option AccountRow) :=
  let range := pageBounds ext t p
  (if p.pos.getD (-1) = -1 then [stepBack t p.accountName] else []) ++
    if range.2 < range.1 then [] else (rowsBetween t p.accountName range.1 range.2).map some

end Query

/-! ### The documented range -/

/-- The actions of an account with their numbers. -/
def numbered (mine : List UInt64) : List (ℤ × UInt64) :=
  mine.mapIdx fun i g => ((i : ℤ), g)

/-- The position that is asked for, the end being after the last action. -/
def askedPosition (count : ℕ) (pos : Int32) : ℤ := if pos = -1 then count else pos.toInt

/-- The numbers from the position on, or those before it. -/
def InPage (pos offset i : ℤ) : Prop :=
  if 0 < offset then pos ≤ i ∧ i < pos + offset else pos + offset ≤ i ∧ i < pos

instance (pos offset i : ℤ) : Decidable (InPage pos offset i) :=
  inferInstanceAs (Decidable (if 0 < offset then _ else _))

def askedRows (mine : List UInt64) (p : GetActionsParams) : List (ℤ × UInt64) :=
  (numbered mine).filter fun q =>
    InPage (askedPosition mine.length (p.pos.getD (-1))) (p.offset.getD (-20)).toInt q.1

/-- The answer is the actions that are asked for, in order. -/
def Answers {V : Type} (chain : ChainView V) (index : ActionHistoryIndex) (mine : List UInt64)
    (p : GetActionsParams) (answer : Except ActionsFailure (GetActionsResult V)) : Prop :=
  ∃ result, answer = .ok result ∧ result.timeLimitExceededError = none ∧
    (askedRows mine p).mapM (fun q => actionResult chain index q.1 q.2) = some result.actions

/-- Only rows of the account are read. -/
def ReadsOwn (n : AccountName) (rows : List (Option AccountRow)) : Prop :=
  ∀ row ∈ rows, ∃ k g, row = some (toLex (n, k), g)

/-! ### Bounds -/

/-- The sum of the position and the count is one of 32 bits. -/
def SumFits (pos offset : Int32) : Prop :=
  -2 ^ 31 ≤ pos.toInt + offset.toInt ∧ pos.toInt + offset.toInt < 2 ^ 31

theorem toInt_add_cases (pos offset : Int32) :
    (pos + offset).toInt = pos.toInt + offset.toInt ∧ SumFits pos offset ∨
      (pos + offset).toInt = pos.toInt + offset.toInt - 2 ^ 32 ∧
        2 ^ 31 ≤ pos.toInt + offset.toInt ∨
      (pos + offset).toInt = pos.toInt + offset.toInt + 2 ^ 32 ∧
        pos.toInt + offset.toInt < -2 ^ 31 := by
  have hp := pos.toInt_lt
  have hp' := pos.le_toInt
  have ho := offset.toInt_lt
  have ho' := offset.le_toInt
  rw [Int32.toInt_add, Int.bmod_def, SumFits]
  omega

/-- The range is taken where the sum fits, and then it goes from the lesser of the position and
the sum to the greater one. -/
theorem bounds_spec (pos offset : Int32) :
    ((bounds pos offset).2 < (bounds pos offset).1 ↔ ¬ SumFits pos offset) ∧
      (SumFits pos offset →
        (bounds pos offset).1.toInt = min pos.toInt (pos.toInt + offset.toInt) ∧
        (bounds pos offset).2.toInt = max pos.toInt (pos.toInt + offset.toInt)) := by
  have hp := pos.toInt_lt
  have hp' := pos.le_toInt
  have ho := offset.toInt_lt
  have ho' := offset.le_toInt
  have hzero : (0 : Int32).toInt = 0 := rfl
  have hsum := toInt_add_cases pos offset
  rw [SumFits] at hsum ⊢
  unfold bounds
  by_cases hoffset : 0 < offset
  · rw [if_pos hoffset, Int32.lt_iff_toInt_lt]
    rw [Int32.lt_iff_toInt_lt, hzero] at hoffset
    dsimp only
    omega
  · rw [if_neg hoffset]
    rw [Int32.lt_iff_toInt_lt, hzero] at hoffset
    dsimp only
    -- A sum that is greater than the position has wrapped.
    by_cases hwrap : pos < pos + offset
    · rw [if_pos hwrap, Int32.lt_iff_toInt_lt, hzero]
      rw [Int32.lt_iff_toInt_lt] at hwrap
      omega
    · rw [if_neg hwrap, Int32.lt_iff_toInt_lt]
      rw [Int32.lt_iff_toInt_lt] at hwrap
      omega

theorem inPage_iff {pos offset i : ℤ} :
    InPage pos offset i ↔ min pos (pos + offset) ≤ i ∧ i < max pos (pos + offset) := by
  unfold InPage
  split <;> omega

/-- The range that includes both of its ends has the right numbers from the right position
exactly if its upper end is not the number of an action. -/
theorem same_page_iff (k : ℕ) (pos offset : ℤ) :
    (∀ i, 0 ≤ i → i < (k : ℤ) →
        (min pos (pos + offset) ≤ i ∧ i ≤ max pos (pos + offset) ↔ InPage pos offset i)) ↔
      ¬ (0 ≤ max pos (pos + offset) ∧ max pos (pos + offset) < k) := by
  simp only [inPage_iff]
  constructor
  · intro h hupper
    have hlast := h _ hupper.1 hupper.2
    omega
  · intro hupper i hi hik
    omega

/-- From the second action on instead of from the end. -/
theorem second_page_iff {k : ℕ} (hk : 2 ≤ k) (offset : ℤ) :
    (∀ i, 0 ≤ i → i < (k : ℤ) →
        (min 1 (1 + offset) ≤ i ∧ i ≤ max 1 (1 + offset) ↔ InPage k offset i)) ↔
      k = 2 ∧ offset ≤ -2 := by
  simp only [inPage_iff]
  constructor
  · intro h
    have hfirst := h 0 (le_refl 0) (by omega)
    have hsecond := h 1 (by omega) (by omega)
    have hlast := h (k - 1) (by omega) (by omega)
    omega
  · rintro ⟨rfl, hoffset⟩ i hi hik
    omega

/-! ### The rows of a range -/

section Rows

variable {t : OrderedTable (AccountName ×ₗ ℤ) UInt64} {n : AccountName} {mine : List UInt64}

theorem mem_numbered {q : ℤ × UInt64} :
    q ∈ numbered mine ↔ ∃ i : ℕ, q.1 = i ∧ mine[i]? = some q.2 := by
  rw [numbered, List.mem_iff_getElem?]
  simp only [List.getElem?_mapIdx, Option.map_eq_some_iff]
  constructor
  · rintro ⟨i, g, hg, rfl⟩
    exact ⟨i, rfl, hg⟩
  · rintro ⟨i, hi, hg⟩
    exact ⟨i, q.2, hg, Prod.ext hi.symm rfl⟩

theorem numbered_sorted (mine : List UInt64) : (numbered mine).Pairwise fun a b => a.1 < b.1 := by
  rw [numbered, List.pairwise_iff_getElem]
  intro i j hi hj hij
  simp only [List.getElem_mapIdx]
  exact_mod_cast hij

/-- What the loop walks over. -/
theorem rowsBetween_eq_filter {start end_ : Int32} (hle : start ≤ end_) :
    rowsBetween t n start end_ = t.rows.filter fun q =>
      (ofLex q.1).1 = n ∧ start.toInt ≤ (ofLex q.1).2 ∧ (ofLex q.1).2 ≤ end_.toInt := by
  have hle' : start.toInt ≤ end_.toInt := Int32.le_iff_toInt_le.mp hle
  have hbelow : IndexRead.Ordered (fun q : AccountRow => q.1 < toLex (n, start.toInt)) t.rows :=
    t.sorted.imp fun hlt hb => by
      rw [decide_eq_true_eq] at hb ⊢
      exact hlt.trans hb
  have hupto : IndexRead.Ordered (fun q : AccountRow => q.1 ≤ toLex (n, end_.toInt)) t.rows :=
    t.sorted.imp fun hlt hb => by
      rw [decide_eq_true_eq] at hb ⊢
      exact hlt.le.trans hb
  have hkeys : toLex (n, start.toInt) ≤ toLex (n, end_.toInt) :=
    Prod.Lex.toLex_le_toLex.mpr (.inr ⟨rfl, hle'⟩)
  have hpos := (IndexRead.lowerBound_le_iff hbelow hupto).mpr fun q _ hq => by
    rw [decide_eq_true_eq] at hq ⊢
    exact hq.le.trans hkeys
  rw [rowsBetween]
  rw [IndexRead.take_drop_lowerBound hbelow hupto hpos]
  apply List.filter_congr
  rintro ⟨⟨a, i⟩, g⟩ -
  have hfrom : ¬ toLex (a, i) < toLex (n, start.toInt) ↔ n < a ∨ n = a ∧ start.toInt ≤ i := by
    rw [not_lt, Prod.Lex.toLex_le_toLex]
  have hto : toLex (a, i) ≤ toLex (n, end_.toInt) ↔ a < n ∨ a = n ∧ i ≤ end_.toInt :=
    Prod.Lex.toLex_le_toLex
  show (!decide (toLex (a, i) < toLex (n, start.toInt)) &&
    decide (toLex (a, i) ≤ toLex (n, end_.toInt))) =
      decide (a = n ∧ start.toInt ≤ i ∧ i ≤ end_.toInt)
  rw [← decide_not, ← Bool.decide_and, decide_eq_decide, hfrom, hto]
  constructor
  · rintro ⟨hlt | ⟨rfl, hstart⟩, hgt | ⟨heq, hend⟩⟩
    · exact absurd hlt hgt.asymm
    · exact absurd hlt (heq ▸ lt_irrefl a)
    · exact absurd hgt (lt_irrefl n)
    · exact ⟨rfl, hstart, hend⟩
  · rintro ⟨rfl, hstart, hend⟩
    exact ⟨.inr ⟨rfl, hstart⟩, .inr ⟨rfl, hend⟩⟩

/-- The rows of a range are the actions of the account with a number in it. -/
theorem HistoryOf.rowsBetween_eq (h : HistoryOf t n mine) {start end_ : Int32}
    (hle : start ≤ end_) :
    (rowsBetween t n start end_).map (fun q => ((ofLex q.1).2, q.2)) =
      (numbered mine).filter fun q => start.toInt ≤ q.1 ∧ q.1 ≤ end_.toInt := by
  have hsorted : ((rowsBetween t n start end_).map fun q => ((ofLex q.1).2, q.2)).Pairwise
      fun a b => a.1 < b.1 := by
    rw [rowsBetween_eq_filter hle, List.pairwise_map, List.pairwise_filter]
    refine t.sorted.imp fun {p q} hlt hp hq => ?_
    rw [decide_eq_true_eq] at hp hq
    obtain hlt | ⟨-, hlt⟩ := Prod.Lex.lt_iff.mp hlt
    · exact absurd (hp.1.trans hq.1.symm) hlt.ne
    · exact hlt
  have hfind : (⟨_, hsorted⟩ : OrderedTable ℤ UInt64) =
      ⟨_, (numbered_sorted mine).filter fun q => start.toInt ≤ q.1 ∧ q.1 ≤ end_.toInt⟩ := by
    refine OrderedTable.eq_of_find fun i => Option.ext fun g => ?_
    rw [OrderedTable.find_eq_some, OrderedTable.find_eq_some]
    show (i, g) ∈ (rowsBetween t n start end_).map _ ↔ (i, g) ∈ (numbered mine).filter _
    rw [rowsBetween_eq_filter hle, List.mem_map, List.mem_filter, mem_numbered, ← h.rows i g,
      OrderedTable.find_eq_some, decide_eq_true_eq]
    constructor
    · rintro ⟨⟨⟨a, j⟩, g'⟩, hmem, heq⟩
      cases heq
      obtain ⟨hrow, hin⟩ := List.mem_filter.mp hmem
      rw [decide_eq_true_eq] at hin
      obtain ⟨rfl, hin⟩ := hin
      exact ⟨hrow, hin⟩
    · rintro ⟨hmem, hin⟩
      exact ⟨(toLex (n, i), g), List.mem_filter.mpr ⟨hmem, decide_eq_true ⟨rfl, hin⟩⟩, rfl⟩
  exact congrArg OrderedTable.rows hfind

/-- The rows of a range are the account's. -/
theorem readsOwn_rowsBetween {start end_ : Int32} (hle : start ≤ end_) :
    ReadsOwn n ((rowsBetween t n start end_).map some) := by
  rw [rowsBetween_eq_filter hle]
  intro row hrow
  obtain ⟨⟨⟨a, k⟩, g⟩, hq, rfl⟩ := List.mem_map.mp hrow
  obtain ⟨-, hin⟩ := List.mem_filter.mp hq
  rw [decide_eq_true_eq] at hin
  obtain ⟨rfl, -⟩ := hin
  exact ⟨k, g, rfl⟩

/-- Where the same numbers are selected the rows are the same. -/
theorem filter_numbered_congr {P Q : ℤ → Prop} [DecidablePred P] [DecidablePred Q]
    (h : ∀ i, 0 ≤ i → i < (mine.length : ℤ) → (P i ↔ Q i)) :
    (numbered mine).filter (fun q => P q.1) = (numbered mine).filter fun q => Q q.1 := by
  refine List.filter_congr fun q hq => decide_eq_decide.mpr ?_
  obtain ⟨i, hi, hg⟩ := mem_numbered.mp hq
  obtain ⟨hlt, -⟩ := List.getElem?_eq_some_iff.mp hg
  rw [hi]
  exact h i (Int.natCast_nonneg i) (Int.ofNat_lt.mpr hlt)

theorem mem_filter_numbered (P : ℤ → Prop) [DecidablePred P] {i : ℕ} (hi : i < mine.length) :
    (i : ℤ) ∈ ((numbered mine).filter fun q => P q.1).map Prod.fst ↔ P i := by
  rw [List.mem_map]
  constructor
  · rintro ⟨q, hq, hqi⟩
    rw [← hqi]
    exact of_decide_eq_true (List.mem_filter.mp hq).2
  · intro hP
    have hrow : ((i : ℤ), mine[i]) ∈ numbered mine :=
      mem_numbered.mpr ⟨i, rfl, List.getElem?_eq_getElem hi⟩
    exact ⟨_, List.mem_filter.mpr ⟨hrow, decide_eq_true hP⟩, rfl⟩

end Rows

/-! ### What is returned and what is read -/

section Answers

variable {V : Type} {ext : Externals} {chain : ChainView V} {index : ActionHistoryIndex}
variable {t : OrderedTable (AccountName ×ₗ ℤ) UInt64} {n : AccountName} {mine : List UInt64}

/-- The actions are all there and can be shown. -/
def Shown (chain : ChainView V) (index : ActionHistoryIndex) (mine : List UInt64) : Prop :=
  ∀ g ∈ mine, ∃ a, (index.rows.find? fun a => a.actionSequenceNum = g) = some a ∧
    ∃ v, chain.showTrace a.packedActionTrace = some v

theorem Shown.mapM_some (h : Shown chain index mine) {l : List (ℤ × UInt64)}
    (hl : l ⊆ numbered mine) :
    ∃ r, l.mapM (fun q => actionResult chain index q.1 q.2) = some r := by
  apply History.mapM_some
  intro q hq
  obtain ⟨i, -, hg⟩ := mem_numbered.mp (hl hq)
  obtain ⟨a, ha, v, hv⟩ := h q.2 (List.mem_of_getElem? hg)
  exact ⟨_, by rw [actionResult, ha, Option.bind_eq_bind, Option.bind_some, hv]; rfl⟩

/-- The results have the numbers of their rows. -/
theorem numbers_of_mapM {l : List (ℤ × UInt64)} {r : List (OrderedActionResult V)}
    (h : l.mapM (fun q => actionResult chain index q.1 q.2) = some r) :
    r.map OrderedActionResult.accountActionSeq = l.map Prod.fst := by
  induction l generalizing r with
  | nil =>
      cases h
      rfl
  | cons q l ih =>
      rw [List.mapM_cons] at h
      obtain ⟨b, hb, h⟩ := Option.bind_eq_some_iff.mp h
      obtain ⟨bs, hbs, h⟩ := Option.bind_eq_some_iff.mp h
      cases h
      obtain ⟨a, -, hb⟩ := Option.bind_eq_some_iff.mp hb
      obtain ⟨v, -, hb⟩ := Option.bind_eq_some_iff.mp hb
      cases hb
      exact congrArg (q.1 :: ·) (ih hbs)

/-- When it is never late, the loop comes to its end. -/
theorem collect_eq {late : ℕ → Bool} (hlate : ∀ i, late i = false) (i : ℕ)
    (rows : List AccountRow) :
    collect chain index late i rows =
      ((rows.map fun q => ((ofLex q.1).2, q.2)).mapM fun q =>
        actionResult chain index q.1 q.2).map fun r => (r, none) := by
  induction rows generalizing i with
  | nil => rfl
  | cons row rows ih =>
      rw [collect, List.map_cons, List.mapM_cons, hlate, ih]
      cases actionResult chain index (ofLex row.1).2 row.2 with
      | none => rfl
      | some b => cases (rows.map fun q => ((ofLex q.1).2, q.2)).mapM fun q =>
          actionResult chain index q.1 q.2 <;> rfl

/-- The answer is what is asked for exactly if the range is taken and selects the same numbers. -/
theorem HistoryOf.answers_iff (h : HistoryOf t n mine) (hshown : Shown chain index mine)
    {late : ℕ → Bool} (hlate : ∀ i, late i = false) {p : GetActionsParams}
    (hname : p.accountName = n) :
    Answers chain index mine p (getActions ext chain index t late p) ↔
      ¬ (pageBounds ext t p).2 < (pageBounds ext t p).1 ∧
        ∀ i, 0 ≤ i → i < (mine.length : ℤ) →
          ((pageBounds ext t p).1.toInt ≤ i ∧ i ≤ (pageBounds ext t p).2.toInt ↔
            InPage (askedPosition mine.length (p.pos.getD (-1)))
              (p.offset.getD (-20)).toInt i) := by
  subst hname
  rw [getActions]
  generalize pageBounds ext t p = range
  by_cases hrange : range.2 < range.1
  · refine iff_of_false ?_ fun hiff => hiff.1 hrange
    rintro ⟨result, hok, -⟩
    rw [if_pos hrange] at hok
    cases hok
  · have hle : range.1 ≤ range.2 := by
      rw [Int32.lt_iff_toInt_lt, not_lt] at hrange
      exact Int32.le_iff_toInt_le.mpr hrange
    obtain ⟨taken, htaken⟩ := hshown.mapM_some (l := (numbered mine).filter fun q =>
      range.1.toInt ≤ q.1 ∧ q.1 ≤ range.2.toInt) (List.filter_subset_self _)
    rw [if_neg hrange, collect_eq hlate, h.rowsBetween_eq hle, htaken, and_iff_right hrange]
    constructor
    · rintro ⟨result, hok, -, hasked⟩ i hi hlt
      cases hok
      obtain ⟨j, rfl⟩ := Int.eq_ofNat_of_zero_le hi
      have hj : j < mine.length := Int.ofNat_lt.mp hlt
      have hsame := (numbers_of_mapM htaken).symm.trans (numbers_of_mapM hasked)
      rw [← mem_filter_numbered (fun i => range.1.toInt ≤ i ∧ i ≤ range.2.toInt) hj, hsame]
      exact mem_filter_numbered _ hj
    · intro hsame
      refine ⟨_, rfl, rfl, ?_⟩
      rw [← htaken, filter_numbered_congr hsame]
      rfl

/-- Only rows of the account are read exactly if the row that is stepped back to is one. -/
theorem readsOwn_iff {p : GetActionsParams} (hname : p.accountName = n) :
    ReadsOwn n (rowsRead ext t p) ↔
      (p.pos.getD (-1) = -1 → ∃ k g, stepBack t n = some (toLex (n, k), g)) := by
  subst hname
  have hwalk : ReadsOwn p.accountName (
      if (pageBounds ext t p).2 < (pageBounds ext t p).1 then []
      else (rowsBetween t p.accountName (pageBounds ext t p).1
        (pageBounds ext t p).2).map some) := by
    split
    · exact fun row hrow => (by cases hrow)
    · rename_i hrange
      rw [Int32.lt_iff_toInt_lt, not_lt] at hrange
      exact readsOwn_rowsBetween (Int32.le_iff_toInt_le.mpr hrange)
  rw [rowsRead]
  constructor
  · intro h hend
    rw [if_pos hend] at h
    exact h _ (List.mem_append_left _ List.mem_cons_self)
  · intro h row hrow
    obtain hrow | hrow := List.mem_append.mp hrow
    · by_cases hend : p.pos.getD (-1) = -1
      · rw [if_pos hend, List.mem_singleton] at hrow
        rw [hrow]
        exact h hend
      · rw [if_neg hend] at hrow
        cases hrow
    · exact hwalk row hrow

theorem position_of_ne {pos : Int32} (hpos : pos ≠ -1) : position ext t n pos = pos := by
  rw [position, if_neg hpos]
  exact if_neg hpos

theorem position_of_stepBack {k : ℤ} {g : UInt64} (hback : stepBack t n = some (toLex (n, k), g))
    (hk : 0 ≤ k) (hlt : k + 1 < 2 ^ 31) : (position ext t n (-1)).toInt = k + 1 := by
  have hrow : ((stepBack t n).map fun q => ofLex q.1).getD ext.pastEnd = (n, k) := by
    rw [hback]
    rfl
  have hnext : (Int32.ofInt (k + 1)).toInt = k + 1 :=
    Int32.toInt_ofInt_of_le (by omega) hlt
  have hne : Int32.ofInt (k + 1) ≠ -1 := by
    intro heq
    rw [heq] at hnext
    have hneg : (-1 : Int32).toInt = -1 := rfl
    omega
  rw [position, if_pos rfl, hrow]
  dsimp only
  rw [if_pos rfl, if_neg hne, hnext]

/-- The answer from a position is what is asked for exactly if the sum fits and the numbers up to
both ends are those of the page. -/
theorem HistoryOf.answers_at (h : HistoryOf t n mine) (hshown : Shown chain index mine)
    {late : ℕ → Bool} (hlate : ∀ i, late i = false) {p : GetActionsParams}
    (hname : p.accountName = n) {pos offset : ℤ}
    (hpos : (position ext t n (p.pos.getD (-1))).toInt = pos)
    (hoffset : (p.offset.getD (-20)).toInt = offset) :
    Answers chain index mine p (getActions ext chain index t late p) ↔
      (-2 ^ 31 ≤ pos + offset ∧ pos + offset < 2 ^ 31) ∧
        ∀ i, 0 ≤ i → i < (mine.length : ℤ) →
          (min pos (pos + offset) ≤ i ∧ i ≤ max pos (pos + offset) ↔
            InPage (askedPosition mine.length (p.pos.getD (-1))) offset i) := by
  obtain ⟨hrange, hbounds⟩ := bounds_spec (position ext t n (p.pos.getD (-1))) (p.offset.getD (-20))
  rw [h.answers_iff hshown hlate hname, pageBounds, hname, hrange, not_not, hoffset]
  rw [hpos, hoffset] at hbounds
  have hfits : SumFits (position ext t n (p.pos.getD (-1))) (p.offset.getD (-20)) ↔
      -2 ^ 31 ≤ pos + offset ∧ pos + offset < 2 ^ 31 := by
    rw [SumFits, hpos, hoffset]
  rw [hfits] at hbounds ⊢
  refine and_congr_right fun hsum => ?_
  rw [(hbounds hsum).1, (hbounds hsum).2]

/-- The position is found and the sum fits, and the upper end of the page is not the number of
an action. -/
structure PageFits (t : OrderedTable (AccountName ×ₗ ℤ) UInt64) (n : AccountName) (count : ℕ)
    (pos offset : Int32) : Prop where
  found : pos = -1 → 0 < count ∧ (n ≠ maxName ∨ Alone t n ∧ count = 1)
  sum : -2 ^ 31 ≤ askedPosition count pos + offset.toInt ∧
    askedPosition count pos + offset.toInt < 2 ^ 31
  upper : ¬ (0 ≤ max (askedPosition count pos) (askedPosition count pos + offset.toInt) ∧
    max (askedPosition count pos) (askedPosition count pos + offset.toInt) < count)

/-- The last two actions or more, of the two that the largest name has where it is the only
name: they are returned from the second one on. -/
def LastTwo (t : OrderedTable (AccountName ×ₗ ℤ) UInt64) (n : AccountName) (count : ℕ)
    (pos offset : Int32) : Prop :=
  pos = -1 ∧ n = maxName ∧ Alone t n ∧ count = 2 ∧ offset.toInt ≤ -2

/-- Where the position is the one that is asked for. -/
theorem HistoryOf.answers_asked (h : HistoryOf t n mine) (hshown : Shown chain index mine)
    {late : ℕ → Bool} (hlate : ∀ i, late i = false) {p : GetActionsParams}
    (hname : p.accountName = n)
    (hpos : (position ext t n (p.pos.getD (-1))).toInt =
      askedPosition mine.length (p.pos.getD (-1)))
    (hfound : p.pos.getD (-1) = -1 →
      0 < mine.length ∧ (n ≠ maxName ∨ Alone t n ∧ mine.length = 1)) :
    Answers chain index mine p (getActions ext chain index t late p) ↔
      PageFits t n mine.length (p.pos.getD (-1)) (p.offset.getD (-20)) := by
  rw [h.answers_at hshown hlate hname hpos rfl, same_page_iff]
  exact ⟨fun hfits => ⟨hfound, hfits.1, hfits.2⟩, fun hfits => ⟨hfits.sum, hfits.upper⟩⟩

/-- At the end of the actions of the largest name. -/
theorem HistoryOf.answers_maxName (h : HistoryOf t maxName mine) (hmine : mine ≠ [])
    (hshown : Shown chain index mine) {late : ℕ → Bool} (hlate : ∀ i, late i = false)
    {p : GetActionsParams} (hname : p.accountName = maxName) (hend : p.pos.getD (-1) = -1) :
    (Answers chain index mine p (getActions ext chain index t late p) ∧
        ∃ k g, stepBack t maxName = some (toLex (maxName, k), g)) ↔
      PageFits t maxName mine.length (p.pos.getD (-1)) (p.offset.getD (-20)) ∨
        LastTwo t maxName mine.length (p.pos.getD (-1)) (p.offset.getD (-20)) := by
  have hlength : 0 < mine.length := List.length_pos_iff.mpr hmine
  have hrows : t.rows ≠ [] := by
    intro hnil
    obtain ⟨g, hg⟩ := h.exists_row hlength
    rw [OrderedTable.find_eq_some, hnil] at hg
    cases hg
  obtain ⟨⟨⟨a, k⟩, g⟩, hback⟩ := exists_stepBack maxName hrows
  obtain ⟨halone, hzero⟩ := h.stepBack_maxName hback
  by_cases ha : a = maxName
  · obtain rfl := hzero ha
    subst ha
    have hone : (position ext t maxName (p.pos.getD (-1))).toInt = 1 := by
      rw [hend, position_of_stepBack hback (le_refl 0) (by decide)]
      rfl
    have hown : ∃ k g, stepBack t maxName = some (toLex (maxName, k), g) := ⟨0, g, hback⟩
    rw [and_iff_left hown]
    by_cases hcount : mine.length = 1
    · have hpos : (position ext t maxName (p.pos.getD (-1))).toInt =
          askedPosition mine.length (p.pos.getD (-1)) := by
        rw [hone, askedPosition, if_pos hend, hcount]
        rfl
      rw [h.answers_asked hshown hlate hname hpos fun _ =>
        ⟨hlength, .inr ⟨halone.mp rfl, hcount⟩⟩]
      refine ⟨.inl, ?_⟩
      rintro (hfits | ⟨-, -, -, htwo, -⟩)
      · exact hfits
      · rw [hcount] at htwo
        cases htwo
    · have hask : askedPosition mine.length (p.pos.getD (-1)) = mine.length := if_pos hend
      have hmin := (p.offset.getD (-20)).le_toInt
      rw [h.answers_at hshown hlate hname hone rfl, hask, second_page_iff (by omega)]
      constructor
      · exact fun hpage => .inr ⟨hend, rfl, halone.mp rfl, hpage.2.1, hpage.2.2⟩
      · rintro (hfits | ⟨-, -, -, htwo, hoffset⟩)
        · obtain hne | ⟨-, honly⟩ := (hfits.found hend).2
          · exact absurd rfl hne
          · exact absurd honly hcount
        · exact ⟨⟨by omega, by omega⟩, htwo, hoffset⟩
  · -- The first row of the index is another account's.
    refine iff_of_false ?_ ?_
    · rintro ⟨-, k', g', hown⟩
      rw [hback] at hown
      cases hown
      exact ha rfl
    · rintro (hfits | htwo)
      · obtain hne | ⟨hothers, -⟩ := (hfits.found hend).2
        · exact hne rfl
        · exact ha (halone.mpr hothers)
      · exact ha (halone.mpr htwo.2.2.1)

/-- A query that is not late returns the documented actions and reads only rows of the account,
if and only if the position is found, the sum fits and the upper end of the page is not the
number of an action, or it is about the last two actions of the largest name. -/
theorem getActions_answers_iff (ext : Externals) (chain : ChainView V)
    (index : ActionHistoryIndex) (p : GetActionsParams)
    (h : HistoryOf t p.accountName mine) (hcount : mine.length < 2 ^ 31)
    (hshown : Shown chain index mine) {late : ℕ → Bool} (hlate : ∀ i, late i = false) :
    (Answers chain index mine p (getActions ext chain index t late p) ∧
        ReadsOwn p.accountName (rowsRead ext t p)) ↔
      PageFits t p.accountName mine.length (p.pos.getD (-1)) (p.offset.getD (-20)) ∨
        LastTwo t p.accountName mine.length (p.pos.getD (-1)) (p.offset.getD (-20)) := by
  rw [readsOwn_iff rfl]
  by_cases hend : p.pos.getD (-1) = -1
  · have hask : askedPosition mine.length (p.pos.getD (-1)) = mine.length := if_pos hend
    by_cases hmine : mine = []
    · -- The row that is stepped back to is another account's, or none.
      subst hmine
      refine iff_of_false (fun hboth => ?_) ?_
      · obtain ⟨k, g, hback⟩ := hboth.2 hend
        exact h.stepBack_of_nil hback rfl
      · rintro (hfits | ⟨-, -, -, hcount, -⟩)
        · exact absurd (hfits.found hend).1 (lt_irrefl 0)
        · cases hcount
    have hlength : 0 < mine.length := List.length_pos_iff.mpr hmine
    by_cases hn : p.accountName = maxName
    · rw [hn] at h ⊢
      have hreads :
          (p.pos.getD (-1) = -1 → ∃ k g, stepBack t maxName = some (toLex (maxName, k), g)) ↔
            ∃ k g, stepBack t maxName = some (toLex (maxName, k), g) :=
        ⟨fun hback => hback hend, fun hback _ => hback⟩
      rw [hreads]
      exact h.answers_maxName hmine hshown hlate hn hend
    · obtain ⟨g, hback⟩ := h.stepBack_of_ne hn hmine
      have hpos : (position ext t p.accountName (p.pos.getD (-1))).toInt =
          askedPosition mine.length (p.pos.getD (-1)) := by
        rw [hask, hend, position_of_stepBack hback (by omega) (by omega)]
        omega
      rw [h.answers_asked hshown hlate rfl hpos fun _ => ⟨hlength, .inl hn⟩]
      constructor
      · exact fun hboth => .inl hboth.1
      · rintro (hfits | htwo)
        · exact ⟨hfits, fun _ => ⟨_, g, hback⟩⟩
        · exact absurd htwo.2.1 hn
  · have hpos : (position ext t p.accountName (p.pos.getD (-1))).toInt =
        askedPosition mine.length (p.pos.getD (-1)) := by
      rw [position_of_ne hend, askedPosition, if_neg hend]
    rw [h.answers_asked hshown hlate rfl hpos fun heq => absurd heq hend]
    constructor
    · exact fun hboth => .inl hboth.1
    · rintro (hfits | htwo)
      · exact ⟨hfits, fun heq => absurd heq hend⟩
      · exact absurd htwo.1 hend

end Answers

/-! ### Two accounts -/

/-- Two actions of the first account and one of another. -/
def twoAccounts : OrderedTable (AccountName ×ₗ ℤ) UInt64 where
  rows := [(toLex (5, 0), 3), (toLex (5, 1), 4), (toLex (7, 0), 6)]
  sorted := by decide +kernel

theorem historyOf_twoAccounts : HistoryOf twoAccounts 5 [3, 4] := by
  refine ⟨fun k g => ?_, fun a k g hrow => ?_⟩
  · rw [OrderedTable.find_eq_some]
    constructor
    · intro hrow
      simp only [twoAccounts, List.mem_cons, Prod.mk.injEq, toLex_inj, List.not_mem_nil,
        or_false] at hrow
      obtain ⟨⟨-, rfl⟩, rfl⟩ | ⟨⟨-, rfl⟩, rfl⟩ | ⟨⟨hne, -⟩, -⟩ := hrow
      · exact ⟨0, rfl, rfl⟩
      · exact ⟨1, rfl, rfl⟩
      · exact absurd hne (by decide)
    · rintro ⟨i, rfl, hi⟩
      obtain ⟨hlt, hg⟩ := List.getElem?_eq_some_iff.mp hi
      have htwo : i = 0 ∨ i = 1 := by
        rw [List.length_cons, List.length_singleton] at hlt
        omega
      obtain rfl | rfl := htwo
      · subst hg
        exact List.mem_cons_self
      · subst hg
        exact List.mem_cons_of_mem _ List.mem_cons_self
  · rw [OrderedTable.find_eq_some] at hrow
    simp only [twoAccounts, List.mem_cons, Prod.mk.injEq, toLex_inj, List.not_mem_nil,
      or_false] at hrow
    omega

theorem shown_twoAccounts : Shown plainChain fewRows [3, 4] := by
  intro g hg
  obtain rfl | hg := List.mem_cons.mp hg
  · exact ⟨_, rfl, _, rfl⟩
  · obtain rfl := List.mem_singleton.mp hg
    exact ⟨_, rfl, _, rfl⟩

/-- The last action of the first account. -/
theorem getActions_answers_last :
    (Answers plainChain fewRows [3, 4] { accountName := 5, offset := some (-1) }
          (getActions zeroPastEnd plainChain fewRows twoAccounts (fun _ => false)
            { accountName := 5, offset := some (-1) }) ∧
        ReadsOwn 5 (rowsRead zeroPastEnd twoAccounts { accountName := 5, offset := some (-1) })) ↔
      PageFits twoAccounts 5 2 (-1) (-1) ∨ LastTwo twoAccounts 5 2 (-1) (-1) :=
  getActions_answers_iff zeroPastEnd plainChain fewRows { accountName := 5, offset := some (-1) }
    historyOf_twoAccounts (by decide) shown_twoAccounts fun _ => rfl

/-- The page of the first action has the second one too. -/
theorem getActions_one_more :
    ¬ ∀ (V : Type) (ext : Externals) (chain : ChainView V) (index : ActionHistoryIndex)
      (t : OrderedTable (AccountName ×ₗ ℤ) UInt64) (mine : List UInt64) (p : GetActionsParams)
      (late : ℕ → Bool), HistoryOf t p.accountName mine → mine.length < 2 ^ 31 →
      Shown chain index mine → (∀ i, late i = false) →
      Answers chain index mine p (getActions ext chain index t late p) ∧
        ReadsOwn p.accountName (rowsRead ext t p) := by
  intro h
  obtain ⟨result, hok, -, hasked⟩ := (h (List UInt8) zeroPastEnd plainChain fewRows twoAccounts
    [3, 4] { accountName := 5, pos := some 0, offset := some 1 } (fun _ => false)
    historyOf_twoAccounts (by decide) shown_twoAccounts fun _ => rfl).1
  have hone : result.actions.length = 1 := by
    have hnumbers := congrArg List.length (numbers_of_mapM hasked)
    rw [List.length_map, List.length_map] at hnumbers
    exact hnumbers.trans (by decide)
  have htwo : ((getActions zeroPastEnd plainChain fewRows twoAccounts (fun _ => false)
      { accountName := 5, pos := some 0, offset := some 1 }).toOption.map fun r =>
        r.actions.length) = some 2 := by decide +kernel
  rw [hok] at htwo
  exact absurd (hone.symm.trans (Option.some.inj htwo)) (by decide)

end Xidata.History
