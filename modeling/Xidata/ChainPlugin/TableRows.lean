import Xidata.Eosiolib.Types
import Xidata.Library.IndexRead

/-!
The rows of a table, as the chain plugin reads them for `get_table_rows`.  The rows of all
tables of all contracts are in one index, and so are their secondary keys of one type; a
query finds a lower and an upper position and reads from the one to the other.  The bounds
are the keys that the strings of the request are converted to, an empty string being none,
and the ten milliseconds that a query may take are not used up.
-/

namespace Xidata.ChainPlugin

open Eosiolib (AccountName)
open IndexRead (Ordered Stop lowerBound read)

structure TableIdObject where
  id : ℕ
  code : AccountName
  scope : AccountName
  table : AccountName
  payer : AccountName := 0
  count : UInt32 := 0
  deriving DecidableEq

structure KeyValueObject where
  tId : ℕ
  primaryKey : UInt64
  value : List UInt8 := []
  deriving DecidableEq

structure SecondaryIndexObject (K : Type) where
  tId : ℕ
  secondaryKey : K
  primaryKey : UInt64
  deriving DecidableEq

/-- Each list is in the order of its index: `by_code_scope_table`, `by_scope_primary` and
`by_secondary`. -/
structure Database (K : Type) [LinearOrder K] where
  tables : List TableIdObject := []
  keyValues : List KeyValueObject := []
  secondary : List (SecondaryIndexObject K) := []
  tables_sorted : tables.Pairwise fun a b =>
    toLex (a.code, toLex (a.scope, a.table)) < toLex (b.code, toLex (b.scope, b.table))
  keyValues_sorted : keyValues.Pairwise fun a b =>
    toLex (a.tId, a.primaryKey) < toLex (b.tId, b.primaryKey)
  secondary_sorted : secondary.Pairwise fun a b =>
    toLex (a.tId, toLex (a.secondaryKey, a.primaryKey)) <
      toLex (b.tId, toLex (b.secondaryKey, b.primaryKey))

/-- `K` is the type of the keys that the bounds are for, and `tableWithIndex` the name that
the secondary index of the request is kept under. -/
structure GetTableRowsParams (K : Type) where
  json : Bool := false
  code : AccountName
  scope : AccountName
  table : AccountName
  tableWithIndex : AccountName := table
  lowerBound : Option K := none
  upperBound : Option K := none
  limit : ℕ := 10

structure GetTableRowsResult (V : Type) where
  rows : List V := []
  more : Bool := false
  deriving DecidableEq

section Queries

variable {K V α : Type} [LinearOrder K]

def Database.findTable (db : Database K) (code scope table : AccountName) : Option TableIdObject :=
  db.tables.find? fun t => t.code = code ∧ t.scope = scope ∧ t.table = table

def Database.findRow (db : Database K) (tId : ℕ) (primaryKey : UInt64) : Option KeyValueObject :=
  db.keyValues.find? fun row => row.tId = tId ∧ row.primaryKey = primaryKey

/-- What comes before a table in an index, or before one of its keys. -/
def before (tId : α → ℕ) (key : α → K) (t : ℕ) : Option K → α → Bool
  | none, a => tId a < t
  | some k, a => tId a < t ∨ tId a = t ∧ key a < k

def lowerPosition (tId : α → ℕ) (key : α → K) (t : ℕ) (bound : Option K) (idx : List α) : ℕ :=
  lowerBound (before tId key t bound) idx

/-- What comes before the next table in an index, or before the upper bound in this one. -/
def beforeEnd (tId : α → ℕ) (key : α → K) (t : ℕ) : Option K → α → Bool
  | none => before tId key (t + 1) none
  | some k => before tId key t (some k)

def upperPosition (tId : α → ℕ) (key : α → K) (t : ℕ) (bound : Option K) (idx : List α) : ℕ :=
  lowerBound (beforeEnd tId key t bound) idx

/-- Nothing if the read goes past the end of the index.  A read that has reached its limit
leaves the iterator behind the last row. -/
def getTableRowsEx (toVariant : Bool → List UInt8 → V) (db : Database K)
    (p : GetTableRowsParams UInt64) : Option (GetTableRowsResult V) :=
  match db.findTable p.code p.scope p.table with
  | none => some {}
  | some t =>
    let lower := lowerPosition KeyValueObject.tId KeyValueObject.primaryKey t.id p.lowerBound
      db.keyValues
    let upper := upperPosition KeyValueObject.tId KeyValueObject.primaryKey t.id p.upperBound
      db.keyValues
    (read (fun row => some (toVariant p.json row.value)) p.limit upper
      (db.keyValues.drop lower) lower 0).map fun r =>
        { rows := r.rows, more := (if r.full then r.pos + 1 else r.pos) ≠ upper }

/-- A key without a row is passed over.  A read that has reached its limit leaves the iterator
at the last row, so that there seems to be more. -/
def getTableRowsBySeckey (toVariant : Bool → List UInt8 → V) (db : Database K)
    (p : GetTableRowsParams K) : Option (GetTableRowsResult V) :=
  match db.findTable p.code p.scope p.table, db.findTable p.code p.scope p.tableWithIndex with
  | some t, some index =>
    let lower := lowerPosition SecondaryIndexObject.tId SecondaryIndexObject.secondaryKey index.id
      p.lowerBound db.secondary
    let upper := upperPosition SecondaryIndexObject.tId SecondaryIndexObject.secondaryKey index.id
      p.upperBound db.secondary
    (read (fun itr => (db.findRow t.id itr.primaryKey).map fun row => toVariant p.json row.value)
      p.limit upper (db.secondary.drop lower) lower 0).map fun r =>
        { rows := r.rows, more := r.pos ≠ upper }
  | _, _ => some {}

/-! ### What a query asks for -/

def inRange (lower upper : Option K) (k : K) : Bool :=
  lower.all (· ≤ k) && upper.all (k < ·)

/-- The rows of the table whose keys are in the range, in the order of the index. -/
def rowsInRange (toVariant : Bool → List UInt8 → V) (db : Database K)
    (p : GetTableRowsParams UInt64) : List V :=
  match db.findTable p.code p.scope p.table with
  | none => []
  | some t =>
    (db.keyValues.filter fun row =>
      row.tId = t.id ∧ inRange p.lowerBound p.upperBound row.primaryKey).map
        fun row => toVariant p.json row.value

def rowsInRangeBySeckey (toVariant : Bool → List UInt8 → V) (db : Database K)
    (p : GetTableRowsParams K) : List V :=
  match db.findTable p.code p.scope p.table, db.findTable p.code p.scope p.tableWithIndex with
  | some t, some index =>
    (db.secondary.filter fun itr =>
      itr.tId = index.id ∧ inRange p.lowerBound p.upperBound itr.secondaryKey).filterMap
        fun itr => (db.findRow t.id itr.primaryKey).map fun row => toVariant p.json row.value
  | _, _ => []

/-- Both bounds are given, and a key is not below the upper one, but below the lower one. -/
def Crossed (lower upper : Option K) (k : K) : Prop :=
  ∃ l ∈ lower, ∃ u ∈ upper, u ≤ k ∧ k < l

/-! ### Positions -/

variable {tId : α → ℕ} {key : α → K} {idx : List α}

theorem ordered_before (hsorted : idx.Pairwise fun a b => toLex (tId a, key a) ≤ toLex (tId b, key b))
    (t : ℕ) (bound : Option K) : Ordered (before tId key t bound) idx := by
  refine hsorted.imp fun {a b} hle hb => ?_
  rw [Prod.Lex.toLex_le_toLex] at hle
  cases bound with
  | none =>
      simp only [before, decide_eq_true_eq] at hb ⊢
      rcases hle with hlt | ⟨heq, -⟩ <;> omega
  | some k =>
      simp only [before, decide_eq_true_eq] at hb ⊢
      rcases hle with hlt | ⟨heq, hkey⟩
      · rcases hb with hb | ⟨hb, -⟩ <;> left <;> omega
      · rcases hb with hb | ⟨hb, hbkey⟩
        · left; omega
        · exact .inr ⟨by omega, hkey.trans_lt hbkey⟩

theorem ordered_beforeEnd
    (hsorted : idx.Pairwise fun a b => toLex (tId a, key a) ≤ toLex (tId b, key b)) (t : ℕ)
    (bound : Option K) : Ordered (beforeEnd tId key t bound) idx := by
  cases bound with
  | none => exact ordered_before hsorted (t + 1) none
  | some k => exact ordered_before hsorted t (some k)

/-- Between the two positions are the entries of the table that are in the range. -/
theorem between_eq (t : ℕ) (lower upper : Option K) (a : α) :
    (!before tId key t lower a && beforeEnd tId key t upper a) =
      decide (tId a = t ∧ inRange lower upper (key a)) := by
  rw [Bool.eq_iff_iff, decide_eq_true_eq]
  cases lower with
  | none =>
      cases upper with
      | none => simp [before, beforeEnd, inRange]; omega
      | some u => simp [before, beforeEnd, inRange]; grind
  | some l =>
      cases upper with
      | none => simp [before, beforeEnd, inRange]; grind
      | some u => simp [before, beforeEnd, inRange]; grind

/-- Only bounds that are crossed leave an entry before the lower and not before the upper. -/
theorem not_beforeEnd_iff (t : ℕ) (lower upper : Option K) (a : α) :
    before tId key t lower a ∧ ¬ beforeEnd tId key t upper a ↔
      tId a = t ∧ Crossed lower upper (key a) := by
  cases lower with
  | none =>
      cases upper with
      | none => simp [before, beforeEnd, Crossed]; omega
      | some u => simp [before, beforeEnd, Crossed]; omega
  | some l =>
      cases upper with
      | none => simp [before, beforeEnd, Crossed]; omega
      | some u => simp [before, beforeEnd, Crossed]; grind

theorem lowerPosition_le_upperPosition_iff
    (hsorted : idx.Pairwise fun a b => toLex (tId a, key a) ≤ toLex (tId b, key b)) (t : ℕ)
    (lower upper : Option K) :
    lowerPosition tId key t lower idx ≤ upperPosition tId key t upper idx ↔
      ¬ ∃ a ∈ idx, tId a = t ∧ Crossed lower upper (key a) := by
  rw [lowerPosition, upperPosition, IndexRead.lowerBound_le_iff (ordered_before hsorted t lower)
    (ordered_beforeEnd hsorted t upper)]
  simp only [← not_beforeEnd_iff, not_exists, not_and, not_not]

/-- Between positions that are in order the read is of the first rows of the range; where it
stops tells whether it has become full, and what is left behind the last row whether there are
more of them. -/
theorem read_range {V : Type}
    (hsorted : idx.Pairwise fun a b => toLex (tId a, key a) ≤ toLex (tId b, key b)) (t : ℕ)
    (lower upper : Option K) (row : α → Option V) {limit : ℕ} (hlimit : 1 ≤ limit)
    (hle : lowerPosition tId key t lower idx ≤ upperPosition tId key t upper idx) {rows : List V}
    (hrows : (idx.filter fun a => tId a = t ∧ inRange lower upper (key a)).filterMap row = rows) :
    ∃ r, read row limit (upperPosition tId key t upper idx)
          (idx.drop (lowerPosition tId key t lower idx)) (lowerPosition tId key t lower idx) 0 =
        some r ∧
      r.rows = rows.take limit ∧
      (r.pos ≠ upperPosition tId key t upper idx ↔ limit ≤ rows.length) ∧
      ((∀ a, (row a).isSome) → ((if r.full then r.pos + 1 else r.pos) ≠
        upperPosition tId key t upper idx ↔ limit < rows.length)) := by
  have hlength : upperPosition tId key t upper idx ≤ lowerPosition tId key t lower idx +
      (idx.drop (lowerPosition tId key t lower idx)).length := by
    have := IndexRead.lowerBound_le_length (beforeEnd tId key t upper) idx
    rw [List.length_drop, upperPosition]
    omega
  have hbetween : ((idx.drop (lowerPosition tId key t lower idx)).take
      (upperPosition tId key t upper idx - lowerPosition tId key t lower idx)).filterMap row =
        rows := by
    rw [lowerPosition, upperPosition, IndexRead.take_drop_lowerBound
      (ordered_before hsorted t lower) (ordered_beforeEnd hsorted t upper) hle, ← hrows]
    exact congrArg (List.filterMap row)
      (List.filter_congr fun a _ => between_eq t lower upper a)
  obtain ⟨r, hr⟩ := Option.isSome_iff_exists.mp
    (IndexRead.read_isSome hle hlength 0 : (read row limit _ _ _ 0).isSome)
  rw [← hbetween]
  exact ⟨r, hr, IndexRead.read_rows hlimit hr hle, IndexRead.pos_ne_iff hlimit hr hle,
    IndexRead.behind_ne_iff hlimit hr hle hlength⟩

/-- The read is of the first rows of the range; where the positions are out of order, it
returns what is not in the range or goes past the end. -/
theorem read_range_iff {V : Type}
    (hsorted : idx.Pairwise fun a b => toLex (tId a, key a) ≤ toLex (tId b, key b)) (t : ℕ)
    (lower upper : Option K) (row : α → Option V) {limit : ℕ} (hlimit : 1 ≤ limit) :
    (∃ r, read row limit (upperPosition tId key t upper idx)
          (idx.drop (lowerPosition tId key t lower idx)) (lowerPosition tId key t lower idx) 0 =
        some r ∧
        r.rows = ((idx.filter fun a => tId a = t ∧ inRange lower upper (key a)).filterMap row).take
          limit) ↔
      ¬ ∃ a ∈ idx, tId a = t ∧ Crossed lower upper (key a) := by
  rw [← lowerPosition_le_upperPosition_iff hsorted]
  constructor
  · rintro ⟨r, hr, hrows⟩
    by_contra hgt
    have hcrossed := hgt
    rw [lowerPosition_le_upperPosition_iff hsorted, not_not] at hcrossed
    obtain ⟨_, _, _, l, hl, u, hu, hle, hlt⟩ := hcrossed
    have hnone : (idx.filter fun a => decide (tId a = t ∧ inRange lower upper (key a))) = [] := by
      refine List.filter_eq_nil_iff.mpr fun a _ ha => ?_
      obtain ⟨-, hrange⟩ := of_decide_eq_true ha
      rw [Option.mem_def.mp hl, Option.mem_def.mp hu] at hrange
      simp only [inRange, Option.all_some, Bool.and_eq_true, decide_eq_true_eq] at hrange
      exact absurd (hrange.1.trans_lt hrange.2) (hle.trans_lt hlt).not_gt
    rw [hnone, List.filterMap_nil, List.take_nil] at hrows
    exact IndexRead.rows_ne_nil_of_lt hr (not_le.mp hgt) hrows
  · intro hle
    obtain ⟨r, hr, hrows, -, -⟩ := read_range hsorted t lower upper row hlimit hle rfl
    exact ⟨r, hr, hrows⟩

/-! ### The queries -/

/-- The query returns the first rows of the range and does not leave the index. -/
def Answers (toVariant : Bool → List UInt8 → V) (db : Database K)
    (p : GetTableRowsParams UInt64) : Prop :=
  ∃ r, getTableRowsEx toVariant db p = some r ∧
    r.rows = (rowsInRange toVariant db p).take p.limit

/-- A row of the table that is not below the upper bound, but below the lower one. -/
def CrossedAtRow (db : Database K) (p : GetTableRowsParams UInt64) : Prop :=
  ∃ t ∈ db.findTable p.code p.scope p.table, ∃ row ∈ db.keyValues,
    row.tId = t.id ∧ Crossed p.lowerBound p.upperBound row.primaryKey

/-- Apart from the flag for more rows, the answer is what has been read. -/
theorem exists_map_rows {x : Option (Stop V)} {f : Stop V → GetTableRowsResult V}
    (hf : ∀ r, (f r).rows = r.rows) {rows : List V} :
    (∃ r, x.map f = some r ∧ r.rows = rows) ↔ ∃ r, x = some r ∧ r.rows = rows := by
  constructor
  · rintro ⟨_, hmap, hrows⟩
    obtain ⟨r, hr, rfl⟩ := Option.map_eq_some_iff.mp hmap
    exact ⟨r, hr, (hf r).symm.trans hrows⟩
  · rintro ⟨r, rfl, hrows⟩
    exact ⟨f r, rfl, (hf r).trans hrows⟩

theorem Database.keyValues_sorted_le (db : Database K) : db.keyValues.Pairwise fun a b =>
    toLex (a.tId, a.primaryKey) ≤ toLex (b.tId, b.primaryKey) :=
  db.keyValues_sorted.imp fun {_ _} => le_of_lt

theorem Database.secondary_sorted_le (db : Database K) : db.secondary.Pairwise fun a b =>
    toLex (a.tId, a.secondaryKey) ≤ toLex (b.tId, b.secondaryKey) := by
  refine db.secondary_sorted.imp fun {a b} hlt => ?_
  simp only [Prod.Lex.toLex_lt_toLex, Prod.Lex.toLex_le_toLex] at hlt ⊢
  rcases hlt with hlt | ⟨heq, hlt | ⟨hkey, -⟩⟩
  · exact .inl hlt
  · exact .inr ⟨heq, hlt.le⟩
  · exact .inr ⟨heq, hkey.le⟩

theorem answers_iff (toVariant : Bool → List UInt8 → V) (db : Database K)
    (p : GetTableRowsParams UInt64) (hlimit : 1 ≤ p.limit) :
    Answers toVariant db p ↔ ¬ CrossedAtRow db p := by
  unfold Answers getTableRowsEx rowsInRange CrossedAtRow
  cases db.findTable p.code p.scope p.table with
  | none => simp
  | some t =>
      have hread := read_range_iff db.keyValues_sorted_le t.id
        p.lowerBound p.upperBound (fun row => some (toVariant p.json row.value)) hlimit
      simp only [Option.mem_some_iff, exists_eq_left']
      rw [← hread, exists_map_rows fun r => rfl]
      simp only [← List.filterMap_eq_map]
      rfl

/-- The bounds are not out of order. -/
def Bounded (lower upper : Option K) : Prop := ∀ l ∈ lower, ∀ u ∈ upper, l ≤ u

theorem Bounded.lowerPosition_le {lower upper : Option K} (h : Bounded lower upper)
    (hsorted : idx.Pairwise fun a b => toLex (tId a, key a) ≤ toLex (tId b, key b)) (t : ℕ) :
    lowerPosition tId key t lower idx ≤ upperPosition tId key t upper idx := by
  rw [lowerPosition_le_upperPosition_iff hsorted]
  rintro ⟨a, -, -, l, hl, u, hu, hle, hlt⟩
  exact absurd (h l hl u hu) (hle.trans_lt hlt).not_ge

/-- The answer has the first rows of the range, and it tells that there are more if and only if
a row of the range follows the last one of them. -/
def TellsMore (answer : Option (GetTableRowsResult V)) (range : List V) (limit : ℕ) : Prop :=
  ∃ r, answer = some r ∧ r.rows = range.take limit ∧ (r.more = true ↔ r.rows.length < range.length)

theorem length_take_lt_iff {range rows : List V} {limit : ℕ} (h : rows = range.take limit) :
    rows.length < range.length ↔ limit < range.length := by
  rw [h, List.length_take]
  omega

theorem getTableRowsEx_tellsMore (toVariant : Bool → List UInt8 → V) (db : Database K)
    (p : GetTableRowsParams UInt64) (hlimit : 1 ≤ p.limit)
    (hbounds : Bounded p.lowerBound p.upperBound) :
    TellsMore (getTableRowsEx toVariant db p) (rowsInRange toVariant db p) p.limit := by
  unfold getTableRowsEx rowsInRange
  cases db.findTable p.code p.scope p.table with
  | none => exact ⟨{}, rfl, by simp, by simp⟩
  | some t =>
      obtain ⟨r, hr, hrows, -, hmore⟩ := read_range db.keyValues_sorted_le t.id p.lowerBound
        p.upperBound (fun row => some (toVariant p.json row.value)) hlimit
        (hbounds.lowerPosition_le db.keyValues_sorted_le t.id) rfl
      rw [List.filterMap_eq_map'] at hrows hmore
      refine ⟨_, congrArg (Option.map _) hr, hrows, ?_⟩
      rw [length_take_lt_iff hrows, ← hmore fun _ => rfl]
      exact decide_eq_true_iff

theorem getTableRowsBySeckey_tellsMore_iff (toVariant : Bool → List UInt8 → V) (db : Database K)
    (p : GetTableRowsParams K) (hlimit : 1 ≤ p.limit)
    (hbounds : Bounded p.lowerBound p.upperBound) :
    TellsMore (getTableRowsBySeckey toVariant db p) (rowsInRangeBySeckey toVariant db p) p.limit ↔
      (rowsInRangeBySeckey toVariant db p).length ≠ p.limit := by
  have hempty : TellsMore (some ({} : GetTableRowsResult V)) [] p.limit ↔
      ([] : List V).length ≠ p.limit :=
    iff_of_true ⟨{}, rfl, by simp, by simp⟩ (by rw [List.length_nil]; omega)
  unfold getTableRowsBySeckey rowsInRangeBySeckey
  cases db.findTable p.code p.scope p.table with
  | none => exact hempty
  | some t =>
      cases db.findTable p.code p.scope p.tableWithIndex with
      | none => exact hempty
      | some index =>
          obtain ⟨r, hr, hrows, hmore, -⟩ := read_range db.secondary_sorted_le index.id
            p.lowerBound p.upperBound
            (fun itr => (db.findRow t.id itr.primaryKey).map fun row =>
              toVariant p.json row.value) hlimit
            (hbounds.lowerPosition_le db.secondary_sorted_le index.id) rfl
          dsimp only
          rw [hr]
          generalize List.filterMap _ _ = range at hrows hmore ⊢
          have hflag : decide (r.pos ≠ upperPosition SecondaryIndexObject.tId
              SecondaryIndexObject.secondaryKey index.id p.upperBound db.secondary) = true ↔
                p.limit ≤ range.length := decide_eq_true_iff.trans hmore
          constructor
          · rintro ⟨_, hanswer, hrows', htells⟩ heq
            cases hanswer
            rw [length_take_lt_iff hrows', hflag] at htells
            omega
          · intro hne
            refine ⟨_, rfl, hrows, ?_⟩
            rw [length_take_lt_iff hrows, hflag]
            omega

/-- A query by primary key always tells whether there are more rows, and one through a
secondary index if and only if the range does not have just as many rows as the limit. -/
theorem getTableRows_tellsMore_iff (toVariant : Bool → List UInt8 → V) (db : Database K)
    (p : GetTableRowsParams UInt64) (q : GetTableRowsParams K) (hp : 1 ≤ p.limit)
    (hq : 1 ≤ q.limit) (hpBounds : Bounded p.lowerBound p.upperBound)
    (hqBounds : Bounded q.lowerBound q.upperBound) :
    TellsMore (getTableRowsEx toVariant db p) (rowsInRange toVariant db p) p.limit ∧
      (TellsMore (getTableRowsBySeckey toVariant db q) (rowsInRangeBySeckey toVariant db q)
          q.limit ↔
        (rowsInRangeBySeckey toVariant db q).length ≠ q.limit) :=
  ⟨getTableRowsEx_tellsMore toVariant db p hp hpBounds,
    getTableRowsBySeckey_tellsMore_iff toVariant db q hq hqBounds⟩

end Queries

/-- Two rows of a table, with a secondary key each, and a row of the table after it. -/
def twoTables : Database UInt64 where
  tables := [⟨0, 1, 1, 16, 0, 2⟩, ⟨1, 1, 1, 17, 0, 2⟩, ⟨2, 2, 1, 16, 0, 1⟩]
  keyValues := [⟨0, 1, [1]⟩, ⟨0, 2, [2]⟩, ⟨2, 5, [5]⟩]
  secondary := [⟨1, 7, 2⟩, ⟨1, 8, 1⟩]
  tables_sorted := by decide
  keyValues_sorted := by decide
  secondary_sorted := by decide

/-- All rows through the secondary index. -/
def wholeIndex (limit : ℕ) : GetTableRowsParams UInt64 where
  code := 1
  scope := 1
  table := 16
  tableWithIndex := 17
  limit := limit

theorem getTableRows_tellsMore_one :
    TellsMore (getTableRowsEx (fun _ value => value) twoTables (wholeIndex 1))
        (rowsInRange (fun _ value => value) twoTables (wholeIndex 1)) 1 ∧
      (TellsMore (getTableRowsBySeckey (fun _ value => value) twoTables (wholeIndex 1))
          (rowsInRangeBySeckey (fun _ value => value) twoTables (wholeIndex 1)) 1 ↔
        (rowsInRangeBySeckey (fun _ value => value) twoTables (wholeIndex 1)).length ≠ 1) :=
  getTableRows_tellsMore_iff _ twoTables (wholeIndex 1) (wholeIndex 1) (by decide) (by decide)
    (fun _ h => by cases h) (fun _ h => by cases h)

/-- Both rows are returned, and there seem to be more. -/
theorem getTableRowsBySeckey_seems_more :
    getTableRowsBySeckey (fun _ value => value) twoTables (wholeIndex 2) =
        some { rows := [[2], [1]], more := true } ∧
      ¬ ∀ (db : Database UInt64) (q : GetTableRowsParams UInt64), 1 ≤ q.limit →
        Bounded q.lowerBound q.upperBound →
        TellsMore (getTableRowsBySeckey (fun _ value => value) db q)
          (rowsInRangeBySeckey (fun _ value => value) db q) q.limit := by
  have hanswer : getTableRowsBySeckey (fun _ value => value) twoTables (wholeIndex 2) =
      some { rows := [[2], [1]], more := true } := by decide
  refine ⟨hanswer, fun h => ?_⟩
  obtain ⟨r, hr, -, hmore⟩ := h twoTables (wholeIndex 2) (by decide) (fun _ h => by cases h)
  rw [hanswer] at hr
  cases hr
  exact absurd (hmore.mp rfl) (by decide)

end Xidata.ChainPlugin
