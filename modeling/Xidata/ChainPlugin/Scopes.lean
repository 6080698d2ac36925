import Mathlib.Tactic.Ring
import Xidata.ChainPlugin.TableRows
import Xidata.Library.Paging
import Xidata.Library.Rollback

/-!
The scopes of a contract, page by page.  The answer to `get_table_by_scope` has the scope
where the next page starts, printed as a name, and the next request has it as its lower
bound.  That text is tried as a number first, and the table is not in it.  Names and symbols
as text are of the chain library.
-/

namespace Xidata.ChainPlugin

open Eosiolib (AccountName charmap)
open IndexRead (Ordered Stop lowerBound read)

/-- What the chain library makes of texts; nothing where it throws. -/
structure ChainText where
  toString : AccountName → List Char
  name : List Char → Option AccountName
  symbolFromString : List Char → Option UInt64
  stringToSymbol : List Char → Option UInt64

/-- A name is written with at most 13 characters, the first for its upper five bits, and is
read as what it was. -/
structure NamesAreText (c : ChainText) : Prop where
  alphabet : ∀ n, ∀ ch ∈ c.toString n, ch ∈ charmap
  length_le : ∀ n, (c.toString n).length ≤ 13
  head : ∀ n ch, (c.toString n).head? = some ch → charmap[(n >>> 59).toNat]? = some ch
  name_toString : ∀ n, c.toString n ≠ [] → c.name (c.toString n) = some n

inductive Failure
  | noConversion (desc : String) (str : List Char)
  | pastEnd
  deriving DecidableEq

/-! ### Numbers and names as text -/

def decimal (str : List Char) : Option UInt64 :=
  if str ≠ [] ∧ str.all Char.isDigit then
    let value := str.foldl (fun value ch => 10 * value + (ch.toNat - '0'.toNat)) 0
    if value < 2 ^ 64 then some (.ofNat value) else none
  else none

/-- `boost::lexical_cast<uint64_t>`; a minus sign is taken modulo the word. -/
def lexicalCast : List Char → Option UInt64
  | '-' :: str => (decimal str).map (0 - ·)
  | '+' :: str => decimal str
  | str => decimal str

def isSpace (ch : Char) : Bool := ch.toNat = 32 ∨ 9 ≤ ch.toNat ∧ ch.toNat ≤ 13

def trim (str : List Char) : List Char :=
  ((str.dropWhile isSpace).reverse.dropWhile isSpace).reverse

def symbolName (symbol : UInt64) : UInt64 := symbol >>> 8

def convertToType (c : ChainText) (str : List Char) (desc : String) : Except Failure UInt64 :=
  match (lexicalCast str).or <| (c.name (trim str)).or <|
      (c.symbolFromString str).or ((c.stringToSymbol str).map symbolName) with
  | some value => .ok value
  | none => .error (.noConversion desc str)

/-! ### The query -/

structure GetTableByScopeParams where
  code : AccountName
  table : AccountName := 0
  lowerBound : List Char := []
  upperBound : List Char := []
  limit : ℕ := 10

structure TableByScopeRow where
  code : AccountName
  scope : AccountName
  table : AccountName
  payer : AccountName
  count : UInt32
  deriving DecidableEq

/-- `more` is empty if there are no more rows. -/
structure GetTableByScopeResult where
  rows : List TableByScopeRow := []
  more : List Char := []
  deriving DecidableEq

def TableIdObject.toRow (t : TableIdObject) : TableByScopeRow :=
  ⟨t.code, t.scope, t.table, t.payer, t.count⟩

/-- Before `(code, scope, table)` in `by_code_scope_table`. -/
def scopeBefore (code scope table : AccountName) (t : TableIdObject) : Bool :=
  toLex (t.code, toLex (t.scope, t.table)) < toLex (code, toLex (scope, table))

/-- Without a table there is no filter. -/
def scopeRow (table : AccountName) (t : TableIdObject) : Option TableByScopeRow :=
  if table ≠ 0 ∧ t.table ≠ table then none else some t.toRow

variable {K : Type} [LinearOrder K]

/-- The loop from the lower to the upper position, and where it leaves the iterator. -/
def readScopes (c : ChainText) (db : Database K) (table : AccountName) (limit lower upper : ℕ) :
    Except Failure GetTableByScopeResult :=
  match read (scopeRow table) limit upper (db.tables.drop lower) lower 0 with
  | none => .error .pastEnd
  | some r =>
    let itr := if r.full then r.pos + 1 else r.pos
    if itr = upper then .ok { rows := r.rows }
    else
      match db.tables[itr]? with
      | none => .error .pastEnd
      | some t => .ok { rows := r.rows, more := c.toString t.scope }

/-- The scope of a bound, if there is one. -/
def scopeOfBound (c : ChainText) (bound : List Char) (desc : String) :
    Except Failure (Option UInt64) :=
  if bound = [] then .ok none else (convertToType c bound desc).map some

def getTableByScope (c : ChainText) (db : Database K) (p : GetTableByScopeParams) :
    Except Failure GetTableByScopeResult := do
  let lowerScope ← scopeOfBound c p.lowerBound "lower_bound scope"
  let upperScope ← scopeOfBound c p.upperBound "upper_bound scope"
  let lower := lowerBound (scopeBefore p.code (lowerScope.getD 0) p.table) db.tables
  let upper := match upperScope with
    | none => lowerBound (scopeBefore (p.code + 1) 0 0) db.tables
    | some scope => lowerBound (scopeBefore p.code scope 0) db.tables
  readScopes c db p.table p.limit lower upper

/-! ### Page by page -/

/-- One page of the scopes of a contract; `more` is the token for the next one. -/
def scopePage (c : ChainText) (db : Database K) (code table : AccountName) (limit : ℕ)
    (token : List Char) : Option (List TableByScopeRow × Option (List Char)) :=
  match getTableByScope c db { code, table, limit, lowerBound := token } with
  | .error _ => none
  | .ok r => some (r.rows, if r.more = [] then none else some r.more)

/-- The entries of the code that the filter lets through. -/
def matching (db : Database K) (code table : AccountName) : List TableByScopeRow :=
  (db.tables.filter fun t => t.code = code).filterMap (scopeRow table)

/-- The pages come to an end and have every matching entry once. -/
def PagesComplete (c : ChainText) (db : Database K) (code table : AccountName) (limit : ℕ) : Prop :=
  ∃ n rows, Paging.collect (scopePage c db code table limit) n [] = some rows ∧
    rows.Perm (matching db code table)

/-! ### Printed names -/

variable {c : ChainText} {db : Database K} {code table : AccountName} {limit : ℕ}

theorem foldl_decimal_lt {str : List Char} (h : str.all Char.isDigit) (value : ℕ) :
    str.foldl (fun value ch => 10 * value + (ch.toNat - '0'.toNat)) value <
      (value + 1) * 10 ^ str.length := by
  induction str generalizing value with
  | nil => simp
  | cons ch str ih =>
      rw [List.all_cons, Bool.and_eq_true] at h
      have hdigit : ch.toNat - '0'.toNat ≤ 9 := by
        have := h.1
        simp only [Char.isDigit, Bool.and_eq_true, decide_eq_true_eq] at this
        have hle : ch.toNat ≤ 57 := this.2
        have : '0'.toNat = 48 := rfl
        omega
      have hrest := ih h.2 (10 * value + (ch.toNat - '0'.toNat))
      rw [List.foldl_cons, List.length_cons, Nat.pow_succ]
      calc
        _ < (10 * value + (ch.toNat - '0'.toNat) + 1) * 10 ^ str.length := hrest
        _ ≤ ((value + 1) * 10) * 10 ^ str.length := Nat.mul_le_mul_right _ (by omega)
        _ = _ := by ring

/-- A number that a printed name is read as has at most 13 digits. -/
theorem decimal_lt {str : List Char} {value : UInt64} (h : decimal str = some value)
    (hlength : str.length ≤ 13) : value.toNat < 10 ^ 13 := by
  unfold decimal at h
  split at h
  next hdigits =>
    dsimp only at h
    split at h
    next hfits =>
      have hlt := foldl_decimal_lt hdigits.2 0
      rw [← Option.some.inj h, UInt64.toNat_ofNat_of_lt' hfits]
      calc
        _ < (0 + 1) * 10 ^ str.length := hlt
        _ ≤ 10 ^ 13 := by
          rw [Nat.zero_add, Nat.one_mul]
          exact Nat.pow_le_pow_right (by decide) hlength
    next => cases h
  next => cases h

theorem le_of_lexicalCast (hc : NamesAreText c) {n : AccountName} {value : UInt64}
    (h : lexicalCast (c.toString n) = some value) : value ≤ n := by
  have halpha := hc.alphabet n
  have hhead := hc.head n
  have hlength := hc.length_le n
  generalize c.toString n = str at h halpha hhead hlength
  unfold lexicalCast at h
  split at h
  · exact absurd (halpha '-' List.mem_cons_self) (by decide)
  · exact absurd (halpha '+' List.mem_cons_self) (by decide)
  · have hlt := decimal_lt h hlength
    unfold decimal at h
    split at h
    next hdigits =>
      obtain ⟨hne, hall⟩ := hdigits
      obtain ⟨ch, rest, rfl⟩ := List.exists_cons_of_ne_nil hne
      have hindex := hhead ch rfl
      -- the first character is a digit, so that the name is large
      have hpos : (n >>> 59).toNat ≠ 0 := by
        intro hzero
        rw [hzero] at hindex
        have hdot : ch = '.' := (Option.some.inj hindex).symm
        rw [List.all_cons, hdot] at hall
        exact absurd hall (by simp [Char.isDigit])
      rw [UInt64.toNat_shiftRight] at hpos
      have hlarge : 2 ^ 59 ≤ n.toNat := by
        by_contra hsmall
        refine hpos ?_
        rw [show (59 : UInt64).toNat % 64 = 59 from rfl, Nat.shiftRight_eq_div_pow]
        exact Nat.div_eq_of_lt (not_le.mp hsmall)
      exact UInt64.le_iff_toNat_le.mpr (hlt.le.trans ((by decide : 10 ^ 13 ≤ 2 ^ 59).trans hlarge))
    next => cases h

theorem trim_eq {str : List Char} (h : ∀ ch ∈ str, ch ∈ charmap) : trim str = str := by
  have hspace : ∀ ch ∈ charmap, isSpace ch = false := fun ch hch =>
    Bool.eq_false_iff.mpr (List.any_eq_false.mp (by decide : charmap.any isSpace = false) ch hch)
  have hdrop : ∀ l : List Char, (∀ ch ∈ l, ch ∈ charmap) → l.dropWhile isSpace = l := by
    intro l hl
    cases l with
    | nil => rfl
    | cons ch l => rw [List.dropWhile_cons_of_neg (by simp [hspace ch (hl ch List.mem_cons_self)])]
  rw [trim, hdrop str h, hdrop str.reverse fun ch hch => h ch (List.mem_reverse.mp hch),
    List.reverse_reverse]

/-- What a printed name is read as, where it is a number, or else the name itself. -/
def readBack (c : ChainText) (n : AccountName) : UInt64 :=
  (lexicalCast (c.toString n)).getD n

theorem convertToType_toString (hc : NamesAreText c) {n : AccountName} (hne : c.toString n ≠ [])
    (desc : String) : convertToType c (c.toString n) desc = .ok (readBack c n) := by
  unfold convertToType readBack
  rw [trim_eq (hc.alphabet n), hc.name_toString n hne]
  cases lexicalCast (c.toString n) with
  | none => rfl
  | some value => rfl

theorem readBack_le (hc : NamesAreText c) (n : AccountName) : readBack c n ≤ n := by
  unfold readBack
  cases h : lexicalCast (c.toString n) with
  | none => exact UInt64.le_refl n
  | some value => exact le_of_lexicalCast hc h

/-! ### The entries of one code -/

def entries (db : Database K) (code : AccountName) : List TableIdObject :=
  db.tables.filter fun t => t.code = code

/-- How many entries come before those of the code. -/
def firstEntry (db : Database K) (code : AccountName) : ℕ :=
  (db.tables.filter fun t => t.code < code).length

theorem code_le_of_sorted (db : Database K) : db.tables.Pairwise fun a b => a.code ≤ b.code := by
  refine db.tables_sorted.imp fun {a b} hlt => ?_
  rw [Prod.Lex.toLex_lt_toLex] at hlt
  rcases hlt with hlt | ⟨heq, -⟩
  · exact UInt64.le_of_lt hlt
  · exact le_of_eq heq

theorem tables_eq (db : Database K) (code : AccountName) :
    db.tables = (db.tables.filter fun t => t.code < code) ++
      (entries db code ++ db.tables.filter fun t => code < t.code) := by
  have hlt : Ordered (fun t : TableIdObject => decide (t.code < code)) db.tables :=
    (code_le_of_sorted db).imp fun {a b} hle hb =>
      decide_eq_true (lt_of_le_of_lt hle (of_decide_eq_true hb))
  have hle : Ordered (fun t : TableIdObject => decide (t.code ≤ code))
      (db.tables.filter fun t => !decide (t.code < code)) :=
    ((code_le_of_sorted db).filter _).imp fun {a b} hle hb =>
      decide_eq_true (le_trans hle (of_decide_eq_true hb))
  have hsplit := IndexRead.eq_append_filter hlt
  rw [IndexRead.eq_append_filter hle, List.filter_filter, List.filter_filter] at hsplit
  conv_lhs => rw [hsplit]
  congr 2
  · refine List.filter_congr fun t _ => ?_
    grind
  · refine List.filter_congr fun t _ => ?_
    grind

theorem ordered_scopeBefore (db : Database K) (code scope table : AccountName) :
    Ordered (scopeBefore code scope table) (entries db code) :=
  (db.tables_sorted.filter _).imp fun hlt hb => decide_eq_true (hlt.trans (of_decide_eq_true hb))

theorem lowerBound_tables (db : Database K) (code scope table : AccountName) :
    lowerBound (scopeBefore code scope table) db.tables =
      firstEntry db code + lowerBound (scopeBefore code scope table) (entries db code) := by
  conv_lhs => rw [tables_eq db code]
  refine IndexRead.lowerBound_append (fun t ht => ?_) fun t ht => ?_
  · have hlt : t.code < code := of_decide_eq_true (List.mem_filter.mp ht).2
    exact decide_eq_true (Prod.Lex.toLex_lt_toLex.mpr (.inl hlt))
  · have hlt : code < t.code := of_decide_eq_true (List.mem_filter.mp ht).2
    refine decide_eq_false fun hbefore => ?_
    rcases Prod.Lex.toLex_lt_toLex.mp hbefore with hlt' | ⟨heq, -⟩
    · exact lt_asymm hlt hlt'
    · exact absurd heq hlt.ne'

theorem drop_tables (db : Database K) (code : AccountName) {pos : ℕ}
    (hpos : pos ≤ (entries db code).length) :
    db.tables.drop (firstEntry db code + pos) =
      (entries db code).drop pos ++ db.tables.filter fun t => code < t.code := by
  conv_lhs => rw [tables_eq db code]
  rw [firstEntry, ← List.drop_drop, List.drop_left, List.drop_append_of_le_length hpos]

theorem getElem?_tables (db : Database K) (code : AccountName) {pos : ℕ}
    (hpos : pos < (entries db code).length) :
    db.tables[firstEntry db code + pos]? = (entries db code)[pos]? := by
  conv_lhs => rw [tables_eq db code]
  rw [firstEntry, List.getElem?_append_right (Nat.le_add_right _ _), Nat.add_sub_cancel_left,
    List.getElem?_append_left hpos]

/-- The end of the code's entries, unless the code is the largest one. -/
theorem lowerBound_next (db : Database K) (hcode : code.toNat + 1 < 2 ^ 64) :
    lowerBound (scopeBefore (code + 1) 0 0) db.tables =
      firstEntry db code + (entries db code).length := by
  have hnext : (code + 1).toNat = code.toNat + 1 := Eosiolib.toNat_add_of_lt hcode
  conv_lhs => rw [tables_eq db code, ← List.append_assoc, ← List.nil_append
    (db.tables.filter fun t => code < t.code)]
  rw [IndexRead.lowerBound_append (fun t ht => ?_) fun t ht => ?_]
  · rw [List.length_append]
    rfl
  · have hle : t.code.toNat ≤ code.toNat := by
      rcases List.mem_append.mp ht with hmem | hmem
      · exact UInt64.le_iff_toNat_le.mp (UInt64.le_of_lt (of_decide_eq_true (List.mem_filter.mp hmem).2))
      · exact (congrArg UInt64.toNat (of_decide_eq_true (List.mem_filter.mp hmem).2)).le
    refine decide_eq_true (Prod.Lex.toLex_lt_toLex.mpr (.inl ?_))
    rw [UInt64.lt_iff_toNat_lt, hnext]
    exact Nat.lt_succ_of_le hle
  · have hlt : code < t.code := of_decide_eq_true (List.mem_filter.mp ht).2
    refine decide_eq_false fun hbefore => ?_
    rw [UInt64.lt_iff_toNat_lt] at hlt
    rcases Prod.Lex.toLex_lt_toLex.mp hbefore with hlt' | ⟨-, hlt'⟩
    · rw [UInt64.lt_iff_toNat_lt, hnext] at hlt'
      exact absurd hlt (Nat.le_of_lt_succ hlt').not_gt
    · rcases Prod.Lex.toLex_lt_toLex.mp hlt' with hlt' | ⟨-, hlt'⟩ <;> exact UInt64.not_lt_zero hlt'

/-- After the largest code there is nothing, but the end that is looked for is the beginning. -/
theorem lowerBound_wrap (db : Database K) : lowerBound (scopeBefore 0 0 0) db.tables = 0 := by
  have hnone : ∀ t : TableIdObject, scopeBefore 0 0 0 t = false := by
    intro t
    refine decide_eq_false fun hbefore => ?_
    rcases Prod.Lex.toLex_lt_toLex.mp hbefore with hlt | ⟨-, hlt⟩
    · exact UInt64.not_lt_zero hlt
    · rcases Prod.Lex.toLex_lt_toLex.mp hlt with hlt | ⟨-, hlt⟩ <;> exact UInt64.not_lt_zero hlt
  cases htables : db.tables with
  | nil => rfl
  | cons t tables => rw [lowerBound, List.findIdx_cons, hnone t]; rfl

/-! ### One page -/

/-- Either the end of the read is that of the entries of the code, or it is the beginning of
the index and lies behind the read. -/
inductive ReadEnd (db : Database K) (code : AccountName) (pos : ℕ) : Bool → Prop
  | meets (hcode : code.toNat + 1 < 2 ^ 64) : ReadEnd db code pos true
  | wraps (hcode : code + 1 = 0) (hpos : 0 < firstEntry db code + pos) : ReadEnd db code pos false

theorem le_of_add_one_eq_zero (hcode : code + 1 = 0) (n : AccountName) : n ≤ code := by
  have hlast : code.toNat = 2 ^ 64 - 1 := by
    have := congrArg UInt64.toNat hcode
    rw [UInt64.toNat_add] at this
    have := code.toNat_lt
    simp only [UInt64.toNat_one, UInt64.toNat_zero] at *
    omega
  rw [UInt64.le_iff_toNat_le, hlast]
  exact Nat.le_pred_of_lt n.toNat_lt

theorem filter_gt_eq_nil (db : Database K) (hcode : code + 1 = 0) :
    (db.tables.filter fun t => decide (code < t.code)) = [] :=
  List.filter_eq_nil_iff.mpr fun t _ hlt =>
    absurd (of_decide_eq_true hlt) (le_of_add_one_eq_zero hcode t.code).not_gt

theorem length_tables_of_wrap (db : Database K) (hcode : code + 1 = 0) :
    db.tables.length = firstEntry db code + (entries db code).length := by
  conv_lhs => rw [tables_eq db code]
  rw [filter_gt_eq_nil db hcode, List.append_nil, List.length_append, firstEntry]

/-- Reading the index from a position in the code's entries is reading these. -/
theorem read_tables (limit : ℕ) {pos : ℕ} {meets : Bool} (hend : ReadEnd db code pos meets)
    (hpos : pos ≤ (entries db code).length) (row : TableIdObject → Option TableByScopeRow) :
    read row limit (lowerBound (scopeBefore (code + 1) 0 0) db.tables)
        (db.tables.drop (firstEntry db code + pos)) (firstEntry db code + pos) 0 =
      ((read row limit (entries db code).length ((entries db code).drop pos) pos 0).filter
        fun r => meets || r.full).map fun r => { r with pos := r.pos + firstEntry db code } := by
  cases hend with
  | meets hcode =>
      have htake : ((entries db code).drop pos ++ db.tables.filter fun t => code < t.code).take
          (firstEntry db code + (entries db code).length - (firstEntry db code + pos)) =
          (entries db code).drop pos := by
        rw [Nat.add_sub_add_left, ← List.length_drop, List.take_left]
      rw [lowerBound_next db hcode, IndexRead.read_take (Nat.add_le_add_left hpos _),
        drop_tables db code hpos, htake, Nat.add_comm _ (entries db code).length,
        Nat.add_comm _ pos, IndexRead.read_add]
      cases read row limit (entries db code).length ((entries db code).drop pos) pos 0 with
      | none => rfl
      | some r => rfl
  | wraps hcode hstart =>
      rw [hcode, lowerBound_wrap, drop_tables db code hpos, filter_gt_eq_nil db hcode,
        List.append_nil,
        IndexRead.read_of_lt hstart, List.length_drop,
        show firstEntry db code + pos + ((entries db code).length - pos) =
          (entries db code).length + firstEntry db code by omega,
        Nat.add_comm _ pos, IndexRead.read_add]
      simp only [Bool.false_or]
      cases read row limit (entries db code).length ((entries db code).drop pos) pos 0 with
      | none => rfl
      | some r => cases hfull : r.full <;> simp [Option.filter, hfull]

/-- What the entry where a page has stopped makes of the next one. -/
def nextPage (c : ChainText) (db : Database K) (code table : AccountName) (t : TableIdObject) :
    Paging.Next :=
  if c.toString t.scope = [] then .last
  else .resume (lowerBound (scopeBefore code (readBack c t.scope) table) (entries db code))

/-- A token stands for the position in the code's entries that it is read back as. -/
def StandsFor (c : ChainText) (db : Database K) (code table : AccountName) (token : List Char)
    (pos : ℕ) : Prop :=
  ∃ scope, scopeOfBound c token "lower_bound scope" = .ok scope ∧
    pos = lowerBound (scopeBefore code (scope.getD 0) table) (entries db code)

theorem ReadEnd.mono {pos pos' : ℕ} {meets : Bool} (h : ReadEnd db code pos meets)
    (hle : pos ≤ pos') : ReadEnd db code pos' meets := by
  cases h with
  | meets hcode => exact .meets hcode
  | wraps hcode hpos => exact .wraps hcode (by omega)

/-- No page starts before the first one. -/
theorem StandsFor.start_le {token : List Char} {pos : ℕ}
    (h : StandsFor c db code table token pos) :
    lowerBound (scopeBefore code 0 table) (entries db code) ≤ pos := by
  obtain ⟨scope, -, rfl⟩ := h
  rw [IndexRead.lowerBound_le_iff (ordered_scopeBefore db code 0 table)
    (ordered_scopeBefore db code (scope.getD 0) table)]
  intro t _ hbefore
  refine decide_eq_true ((of_decide_eq_true hbefore).trans_le ?_)
  rw [Prod.Lex.toLex_le_toLex]
  refine .inr ⟨rfl, ?_⟩
  rw [Prod.Lex.toLex_le_toLex]
  rcases (UInt64.zero_le : 0 ≤ scope.getD 0).lt_or_eq with hlt | heq
  · exact .inl hlt
  · exact .inr ⟨heq, UInt64.le_refl _⟩

theorem StandsFor.le_length {token : List Char} {pos : ℕ}
    (h : StandsFor c db code table token pos) : pos ≤ (entries db code).length := by
  obtain ⟨scope, -, rfl⟩ := h
  exact IndexRead.lowerBound_le_length _ _

/-- The token of a printed name. -/
theorem standsFor_toString (hc : NamesAreText c) {n : AccountName} (hne : c.toString n ≠ []) :
    StandsFor c db code table (c.toString n)
      (lowerBound (scopeBefore code (readBack c n) table) (entries db code)) :=
  ⟨some (readBack c n), by rw [scopeOfBound, if_neg hne, convertToType_toString hc hne]; rfl, rfl⟩

theorem standsFor_nil (c : ChainText) (db : Database K) (code table : AccountName) :
    StandsFor c db code table [] (lowerBound (scopeBefore code 0 table) (entries db code)) :=
  ⟨none, rfl, rfl⟩

/-- The answer to a token, in terms of the code's entries. -/
theorem getTableByScope_of_read {token : List Char} {pos itr : ℕ} {meets : Bool}
    (htoken : StandsFor c db code table token pos) (hend : ReadEnd db code pos meets)
    {r : Stop TableByScopeRow}
    (hr : read (scopeRow table) limit (entries db code).length ((entries db code).drop pos) pos 0 =
      some r) (hitr : (if r.full then r.pos + 1 else r.pos) = itr) :
    (itr = (entries db code).length →
        getTableByScope c db { code, table, limit, lowerBound := token } =
          if meets then .ok { rows := r.rows } else .error .pastEnd) ∧
      ∀ t, (entries db code)[itr]? = some t →
        getTableByScope c db { code, table, limit, lowerBound := token } =
          .ok { rows := r.rows, more := c.toString t.scope } := by
  have hread := read_tables limit hend htoken.le_length (scopeRow table)
  obtain ⟨scope, hscope, hlower⟩ := htoken
  have hquery : getTableByScope c db { code, table, limit, lowerBound := token } =
      readScopes c db table limit (firstEntry db code + pos)
        (lowerBound (scopeBefore (code + 1) 0 0) db.tables) := by
    rw [hlower, ← lowerBound_tables, getTableByScope, hscope]
    rfl
  rw [hquery, readScopes, hread, hr]
  have hshift : (if r.full then r.pos + firstEntry db code + 1 else r.pos + firstEntry db code) =
      firstEntry db code + itr := by
    rw [← hitr]
    split <;> omega
  cases hend with
  | meets hcode =>
      simp only [Bool.true_or, Option.filter_some, if_true, Option.map_some, hshift,
        lowerBound_next db hcode, Nat.add_left_cancel_iff]
      refine ⟨fun hlast => if_pos hlast, fun t ht => ?_⟩
      have hlt := (List.getElem?_eq_some_iff.mp ht).1
      rw [if_neg hlt.ne, getElem?_tables db code hlt, ht]
  | wraps hcode hstart =>
      cases hfull : r.full with
      | false =>
          obtain ⟨htrue, -⟩ | ⟨-, hends⟩ := IndexRead.read_cases hr
          · rw [hfull] at htrue; cases htrue
          · rw [hfull, if_neg (by decide), hends.hpos] at hitr
            simp only [Bool.false_or, Option.filter_some, hfull, Bool.false_eq_true, if_false,
              Option.map_none]
            refine ⟨fun _ => trivial, fun t ht => ?_⟩
            rw [← hitr, List.getElem?_eq_none (Nat.le_refl _)] at ht
            cases ht
      | true =>
          rw [hfull, if_pos rfl] at hshift hitr
          have hlength := length_tables_of_wrap db hcode
          simp only [Bool.false_or, Option.filter_some, hfull, if_true, Option.map_some, hshift,
            hcode, lowerBound_wrap]
          rw [if_neg (by omega)]
          refine ⟨fun hlast => ?_, fun t ht => ?_⟩
          · rw [List.getElem?_eq_none (by omega)]
            rfl
          · have hlt := (List.getElem?_eq_some_iff.mp ht).1
            rw [getElem?_tables db code hlt, ht]

/-- The position of the first page. -/
def firstPage (db : Database K) (code table : AccountName) : ℕ :=
  lowerBound (scopeBefore code 0 table) (entries db code)

/-- A query and a page of the code's entries have the same rows and go on from the same
position. -/
theorem scopePage_agrees (limit : ℕ) (hc : NamesAreText c) {meets : Bool}
    (hend : ReadEnd db code (firstPage db code table) meets) {token : List Char} {pos : ℕ}
    (htoken : StandsFor c db code table token pos) :
    let page := Paging.pageAt (scopeRow table) limit (nextPage c db code table) meets
      (entries db code) pos
    scopePage c db code table limit token = none ∧ page = none ∨
      ∃ rows, scopePage c db code table limit token = some (rows, none) ∧ page = some (rows, none) ∨
        ∃ token' pos', StandsFor c db code table token' pos' ∧
          scopePage c db code table limit token = some (rows, some token') ∧
          page = some (rows, some pos') := by
  intro page
  have hlength : (entries db code).length ≤ pos + ((entries db code).drop pos).length := by
    rw [List.length_drop]
    omega
  obtain ⟨r, hr⟩ := Option.isSome_iff_exists.mp
    (IndexRead.read_isSome htoken.le_length hlength 0 : (read (scopeRow table) limit _ _ _ 0).isSome)
  obtain ⟨hlast, hnext⟩ := getTableByScope_of_read htoken (hend.mono htoken.start_le) hr rfl
  have hpage : page = Paging.pageAt (scopeRow table) limit (nextPage c db code table) meets
      (entries db code) pos := rfl
  unfold Paging.pageAt at hpage
  rw [hr] at hpage
  unfold scopePage
  cases hget : (entries db code)[if r.full then r.pos + 1 else r.pos]? with
  | none =>
      have hle : (if r.full then r.pos + 1 else r.pos) ≤ (entries db code).length := by
        obtain ⟨hfull, before, m, after, b, hfills⟩ | ⟨hfull, hends⟩ := IndexRead.read_cases hr
        · rw [hfull, if_pos rfl]
          have := hfills.hupper
          have := htoken.le_length
          omega
        · rw [hfull, if_neg (by decide), hends.hpos]
      rw [hlast (le_antisymm hle (List.getElem?_eq_none_iff.mp hget))]
      simp only [hget] at hpage
      cases meets with
      | true => exact .inr ⟨r.rows, .inl ⟨rfl, hpage⟩⟩
      | false => exact .inl ⟨rfl, hpage⟩
  | some t =>
      rw [hnext t hget]
      simp only [hget] at hpage
      by_cases hempty : c.toString t.scope = []
      · refine .inr ⟨r.rows, .inl ⟨by simp [hempty], ?_⟩⟩
        rw [hpage, nextPage, if_pos hempty]
        rfl
      · refine .inr ⟨r.rows, .inr ⟨_, _, standsFor_toString hc hempty, by simp [hempty], ?_⟩⟩
        rw [hpage, nextPage, if_neg hempty]
        rfl

/-! ### All pages -/

/-- What comes before a position of the code's entries with the same or a later scope does not
pass the filter. -/
theorem scopeRow_eq_none {scope : AccountName} {t : TableIdObject} (ht : t ∈ entries db code)
    (hbefore : scopeBefore code scope table t) (hscope : scope ≤ t.scope) :
    scopeRow table t = none := by
  have hcode : t.code = code := of_decide_eq_true (List.mem_filter.mp ht).2
  rcases Prod.Lex.toLex_lt_toLex.mp (of_decide_eq_true hbefore) with hlt | ⟨-, hlt⟩
  · exact absurd hcode hlt.ne
  · rcases Prod.Lex.toLex_lt_toLex.mp hlt with hlt | ⟨-, hlt⟩
    · exact absurd hscope hlt.not_ge
    · have hne : table ≠ 0 := by
        rintro rfl
        exact UInt64.not_lt_zero hlt
      exact if_pos ⟨hne, hlt.ne⟩

theorem filterMap_take_firstPage (db : Database K) (code table : AccountName) :
    ((entries db code).take (firstPage db code table)).filterMap (scopeRow table) = [] := by
  rw [firstPage, IndexRead.take_lowerBound (ordered_scopeBefore db code 0 table),
    List.filterMap_eq_nil_iff]
  intro t ht
  obtain ⟨hmem, hbefore⟩ := List.mem_filter.mp ht
  exact scopeRow_eq_none hmem hbefore UInt64.zero_le

theorem matching_eq (db : Database K) (code table : AccountName) :
    matching db code table =
      ((entries db code).drop (firstPage db code table)).filterMap (scopeRow table) := by
  have hsplit := congrArg (List.filterMap (scopeRow table))
    (List.take_append_drop (firstPage db code table) (entries db code))
  rw [List.filterMap_append, filterMap_take_firstPage, List.nil_append] at hsplit
  rw [hsplit]
  rfl

theorem pagesComplete_iff_complete (hc : NamesAreText c) {meets : Bool}
    (hend : ReadEnd db code (firstPage db code table) meets) :
    PagesComplete c db code table limit ↔
      Paging.Complete (scopeRow table) limit (nextPage c db code table) meets (entries db code)
        (firstPage db code table) := by
  have hcollect := fun n => Paging.collect_congr
    (fun token pos htoken => scopePage_agrees limit hc hend htoken)
    (standsFor_nil c db code table) n
  unfold PagesComplete Paging.Complete
  rw [matching_eq]
  exact exists_congr fun n => by rw [hcollect n]; rfl

theorem scope_sorted (db : Database K) (code : AccountName) :
    (entries db code).Pairwise fun a b => a.scope ≤ b.scope := by
  refine (db.tables_sorted.filter _).imp_of_mem fun {a b} ha hb hlt => ?_
  have hcode : a.code = b.code :=
    (of_decide_eq_true (List.mem_filter.mp ha).2 : a.code = code).trans
      (of_decide_eq_true (List.mem_filter.mp hb).2 : b.code = code).symm
  rcases Prod.Lex.toLex_lt_toLex.mp hlt with hlt | ⟨-, hlt⟩
  · exact absurd hcode hlt.ne
  · rcases Prod.Lex.toLex_lt_toLex.mp hlt with hlt | ⟨heq, -⟩
    · exact UInt64.le_of_lt hlt
    · exact le_of_eq heq

theorem nodup_rows (db : Database K) (code table : AccountName) :
    ((entries db code).filterMap (scopeRow table)).Nodup := by
  refine List.Pairwise.filterMap _ (fun a b hlt row hrow row' hrow' heq => ?_)
    (db.tables_sorted.filter _)
  have htoRow : ∀ (t : TableIdObject) (row : TableByScopeRow), scopeRow table t = some row →
      t.toRow = row := by
    intro t row h
    unfold scopeRow at h
    split at h
    · cases h
    · exact Option.some.inj h
  have hsame : a.toRow = b.toRow := (htoRow a row hrow).trans (heq.trans (htoRow b row' hrow').symm)
  injection hsame with hcode hscope htable
  rw [hcode, hscope, htable] at hlt
  exact lt_irrefl _ hlt

/-- A page that is resumed ahead leaves out what does not pass the filter. -/
theorem skipsOnly_entries (hc : NamesAreText c) :
    Paging.SkipsOnly (scopeRow table) (nextPage c db code table) (entries db code) := by
  intro q e p hget hnext
  have hp : p = lowerBound (scopeBefore code (readBack c e.scope) table) (entries db code) := by
    unfold nextPage at hnext
    split at hnext
    · cases hnext
    · exact (Paging.Next.resume.inj hnext).symm
  have hordered := ordered_scopeBefore db code (readBack c e.scope) table
  refine ⟨hp ▸ IndexRead.lowerBound_le_length _ _, fun hle => ?_⟩
  rw [← List.drop_take, List.filterMap_eq_nil_iff]
  intro t ht
  have htake : t ∈ (entries db code).take p := List.mem_of_mem_drop ht
  rw [hp, IndexRead.take_lowerBound hordered] at htake
  obtain ⟨hmem, hbefore⟩ := List.mem_filter.mp htake
  refine scopeRow_eq_none hmem hbefore ((readBack_le hc e.scope).trans ?_)
  obtain ⟨hq, rfl⟩ := List.getElem?_eq_some_iff.mp hget
  have hsorted := (scope_sorted db code).drop (i := q)
  rw [List.drop_eq_getElem_cons hq, List.pairwise_cons] at hsorted
  have hdrop : t ∈ (entries db code).drop q := by
    rw [List.drop_take] at ht
    exact List.mem_of_mem_take ht
  rw [List.drop_eq_getElem_cons hq, List.mem_cons] at hdrop
  rcases hdrop with rfl | hafter
  · exact UInt64.le_refl _
  · exact hsorted.1 t hafter

/-! ### When the pages are complete -/

/-- A page of the code's entries ends with the row of `m`, and `e` is the entry after it. -/
structure PageEnd (db : Database K) (code table : AccountName) (limit : ℕ)
    (before : List TableIdObject) (m e : TableIdObject) (after : List TableIdObject) : Prop where
  hsplit : entries db code = before ++ m :: e :: after
  hrow : (scopeRow table m).isSome
  hfull : limit ∣ (before.filterMap (scopeRow table)).length + 1

/-- The token is read as a scope after that of `m`; or it is empty, and nothing is left. -/
def TakenUp (c : ChainText) (table : AccountName) (m e : TableIdObject)
    (after : List TableIdObject) : Prop :=
  c.toString e.scope = [] ∧ (e :: after).filterMap (scopeRow table) = [] ∨
    c.toString e.scope ≠ [] ∧
      ∃ scope, convertToType c (c.toString e.scope) "lower_bound scope" = .ok scope ∧ m.scope < scope

/-- The code is not the largest name.  Otherwise the end of the read is the beginning of the
index, which ends the pages only if it is also where they start, or if a token is empty. -/
def EndIsMet (c : ChainText) (db : Database K) (code table : AccountName) (limit : ℕ) : Prop :=
  code.toNat + 1 < 2 ^ 64 ∨
    (∀ t ∈ db.tables, ¬ scopeBefore code 0 table t) ∧ matching db code table = [] ∨
    (∃ t ∈ db.tables, scopeBefore code 0 table t) ∧
      ∃ before m e after, PageEnd db code table limit before m e after ∧ c.toString e.scope = []

theorem scopeBefore_iff_of_row {scope : AccountName} {m : TableIdObject} (hm : m ∈ entries db code)
    (hrow : (scopeRow table m).isSome) : scopeBefore code scope table m ↔ m.scope < scope := by
  constructor
  · intro hbefore
    by_contra hge
    rw [scopeRow_eq_none hm hbefore (not_lt.mp hge)] at hrow
    cases hrow
  · intro hlt
    have hcode : m.code = code := of_decide_eq_true (List.mem_filter.mp hm).2
    refine decide_eq_true (Prod.Lex.toLex_lt_toLex.mpr (.inr ⟨hcode, ?_⟩))
    exact Prod.Lex.toLex_lt_toLex.mpr (.inl hlt)

theorem takenUp_iff (hc : NamesAreText c) {before after : List TableIdObject} {m e : TableIdObject}
    (h : PageEnd db code table limit before m e after) :
    Paging.Resumes (scopeRow table) (nextPage c db code table) 0 before e after ↔
      TakenUp c table m e after := by
  have hm : m ∈ entries db code := by rw [h.hsplit]; simp
  have hlt : before.length < (entries db code).length := by rw [h.hsplit]; simp
  have hget : (entries db code)[before.length] = m := by simp [h.hsplit]
  unfold Paging.Resumes TakenUp nextPage
  by_cases hempty : c.toString e.scope = []
  · simp [hempty]
  · rw [convertToType_toString hc hempty]
    simp only [ne_eq, hempty, if_false, reduceCtorEq, false_and, false_or,
      Paging.Next.resume.injEq, exists_eq_left', Nat.zero_add, not_false_eq_true, true_and,
      Except.ok.injEq]
    rw [IndexRead.lt_lowerBound_iff (ordered_scopeBefore db code _ table) hlt, hget,
      scopeBefore_iff_of_row hm h.hrow]

theorem boundary_iff {before after : List TableIdObject} {m e : TableIdObject} :
    Paging.Boundary (scopeRow table) limit (entries db code) 0 before m e after ↔
      PageEnd db code table limit before m e after :=
  ⟨fun ⟨hsplit, hrow, hfull⟩ => ⟨hsplit, hrow, hfull⟩,
    fun ⟨hsplit, hrow, hfull⟩ => ⟨hsplit, hrow, hfull⟩⟩

theorem resumable_iff (hc : NamesAreText c) (meets : Bool) :
    Paging.Resumable (scopeRow table) limit (nextPage c db code table) meets (entries db code)
        (firstPage db code table) ↔
      (∀ before m e after, PageEnd db code table limit before m e after →
        TakenUp c table m e after) ∧
      (meets ∨ ∃ before m e after, PageEnd db code table limit before m e after ∧
        c.toString e.scope = []) := by
  have hnone : (((entries db code).drop 0).take (firstPage db code table - 0)).filterMap
      (scopeRow table) = [] := by
    rw [List.drop_zero, Nat.sub_zero]
    exact filterMap_take_firstPage db code table
  have hlast : ∀ e, nextPage c db code table e = .last ↔ c.toString e.scope = [] := by
    intro e
    unfold nextPage
    split <;> simp [*]
  have hlength : firstPage db code table ≤ (entries db code).length :=
    IndexRead.lowerBound_le_length _ _
  rw [← Paging.resumable_skip (Nat.zero_le _) hlength hnone]
  constructor
  · rintro ⟨hresumes, hends⟩
    refine ⟨fun before m e after h => ?_, hends.imp_right ?_⟩
    · exact (takenUp_iff hc h).mp (hresumes before m e after (boundary_iff.mpr h))
    · rintro ⟨before, m, e, after, h, he⟩
      exact ⟨before, m, e, after, boundary_iff.mp h, (hlast e).mp he⟩
  · rintro ⟨htaken, hends⟩
    refine ⟨fun before m e after h => ?_, hends.imp_right ?_⟩
    · exact (takenUp_iff hc (boundary_iff.mp h)).mpr (htaken before m e after (boundary_iff.mp h))
    · rintro ⟨before, m, e, after, h, he⟩
      exact ⟨before, m, e, after, boundary_iff.mpr h, (hlast e).mpr he⟩

theorem first_eq_zero_iff (db : Database K) (code table : AccountName) :
    firstEntry db code + firstPage db code table = 0 ↔
      ∀ t ∈ db.tables, ¬ scopeBefore code 0 table t := by
  have hordered : Ordered (scopeBefore code 0 table) db.tables :=
    db.tables_sorted.imp fun hlt hb => decide_eq_true (hlt.trans (of_decide_eq_true hb))
  rw [firstPage, ← lowerBound_tables]
  constructor
  · intro hzero t ht hbefore
    have htake := IndexRead.take_lowerBound hordered
    rw [hzero, List.take_zero] at htake
    exact List.filter_eq_nil_iff.mp htake.symm t ht hbefore
  · intro hnone
    cases htables : db.tables with
    | nil => rfl
    | cons t tables =>
        have hfirst : scopeBefore code 0 table t = false :=
          Bool.eq_false_iff.mpr (hnone t (htables ▸ List.mem_cons_self))
        rw [lowerBound, List.findIdx_cons, hfirst]
        rfl

/-- From the beginning of the index to its beginning nothing is read. -/
theorem pagesComplete_of_wrap (hcode : code + 1 = 0)
    (hzero : firstEntry db code + firstPage db code table = 0) :
    PagesComplete c db code table limit ↔ matching db code table = [] := by
  have hpage : scopePage c db code table limit [] = some ([], none) := by
    have hlower : lowerBound (scopeBefore code 0 table) db.tables = 0 := by
      rw [lowerBound_tables]
      exact hzero
    have hread : ∀ l : List TableIdObject, read (scopeRow table) limit 0 l 0 0 =
        some ⟨[], 0, false⟩ := by
      intro l
      cases l <;> rfl
    have hquery : getTableByScope c db { code, table, limit, lowerBound := [] } =
        readScopes c db table limit (lowerBound (scopeBefore code 0 table) db.tables)
          (lowerBound (scopeBefore (code + 1) 0 0) db.tables) := rfl
    rw [scopePage, hquery, hlower, hcode, lowerBound_wrap, readScopes, hread]
    rfl
  rw [PagesComplete, Paging.collect_last hpage, List.nil_perm]

theorem not_pageEnd_of_nil (hnil : matching db code table = []) {before after : List TableIdObject}
    {m e : TableIdObject} : ¬ PageEnd db code table limit before m e after := by
  rintro ⟨hsplit, hrow, -⟩
  have hm : m ∈ entries db code := by rw [hsplit]; simp
  rw [List.filterMap_eq_nil_iff.mp hnil m hm] at hrow
  cases hrow

/-- The pages come to an end and have every entry once exactly when each of them that is not
the last is taken up after the scope of its last row, and the end of the read is met. -/
theorem pagesComplete_iff (hc : NamesAreText c) (db : Database K) (code table : AccountName)
    {limit : ℕ} (hlimit : 1 ≤ limit) :
    PagesComplete c db code table limit ↔
      (∀ before m e after, PageEnd db code table limit before m e after →
        TakenUp c table m e after) ∧ EndIsMet c db code table limit := by
  have hlength : firstPage db code table ≤ (entries db code).length :=
    IndexRead.lowerBound_le_length _ _
  have hcomplete : ∀ meets, ReadEnd db code (firstPage db code table) meets →
      (PagesComplete c db code table limit ↔
        (∀ before m e after, PageEnd db code table limit before m e after →
          TakenUp c table m e after) ∧
        (meets ∨ ∃ before m e after, PageEnd db code table limit before m e after ∧
          c.toString e.scope = [])) := by
    intro meets hend
    rw [pagesComplete_iff_complete hc hend,
      Paging.complete_iff hlimit (nodup_rows db code table) (skipsOnly_entries hc) hlength,
      resumable_iff hc]
  by_cases hcode : code.toNat + 1 < 2 ^ 64
  · rw [hcomplete true (.meets hcode)]
    exact and_congr_right fun _ => iff_of_true (.inl rfl) (.inl hcode)
  · have hwrap : code + 1 = 0 := by
      rw [← UInt64.toNat_inj, UInt64.toNat_add]
      have := code.toNat_lt
      simp only [UInt64.toNat_one, UInt64.toNat_zero]
      omega
    have hfirst := first_eq_zero_iff db code table
    by_cases hzero : firstEntry db code + firstPage db code table = 0
    · rw [pagesComplete_of_wrap hwrap hzero]
      have hnone := hfirst.mp hzero
      constructor
      · intro hnil
        exact ⟨fun _ _ _ _ h => absurd h (not_pageEnd_of_nil hnil), .inr (.inl ⟨hnone, hnil⟩)⟩
      · rintro ⟨-, hlt | ⟨-, hnil⟩ | ⟨⟨t, ht, hbefore⟩, -⟩⟩
        · exact absurd hlt hcode
        · exact hnil
        · exact absurd hbefore (hnone t ht)
    · rw [hcomplete false (.wraps hwrap (Nat.pos_of_ne_zero hzero))]
      have hsome : ∃ t ∈ db.tables, scopeBefore code 0 table t := by
        by_contra hnone
        push Not at hnone
        exact hzero (hfirst.mpr hnone)
      refine and_congr_right fun _ => ?_
      constructor
      · rintro (hfalse | hempty)
        · cases hfalse
        · exact .inr (.inr ⟨hsome, hempty⟩)
      · rintro (hlt | ⟨hnone, -⟩ | ⟨-, hempty⟩)
        · exact absurd hlt hcode
        · obtain ⟨t, ht, hbefore⟩ := hsome
          exact absurd hbefore (hnone t ht)
        · exact .inr hempty

/-! ### Two scopes -/

/-- Two names as text. -/
def aliceAndBob : ChainText where
  toString n :=
    if n = Eosiolib.N "alice" then "alice".toList
    else if n = Eosiolib.N "bob" then "bob".toList else []
  name str :=
    if str = "alice".toList then some (Eosiolib.N "alice")
    else if str = "bob".toList then some (Eosiolib.N "bob") else none
  symbolFromString _ := none
  stringToSymbol _ := none

theorem aliceAndBob_cases (n : AccountName) :
    n = Eosiolib.N "alice" ∨ n = Eosiolib.N "bob" ∨ aliceAndBob.toString n = [] := by
  unfold aliceAndBob
  dsimp only
  split
  · next h => exact .inl h
  · split
    · next h => exact .inr (.inl h)
    · exact .inr (.inr rfl)

theorem namesAreText_aliceAndBob : NamesAreText aliceAndBob where
  alphabet n := by
    show aliceAndBob.toString n ⊆ charmap
    obtain rfl | rfl | hnil := aliceAndBob_cases n
    · decide
    · decide
    · simp [hnil]
  length_le n := by
    obtain rfl | rfl | hnil := aliceAndBob_cases n
    · decide
    · decide
    · simp [hnil]
  head n ch h := by
    obtain rfl | rfl | hnil := aliceAndBob_cases n
    · cases h; decide
    · cases h; decide
    · simp [hnil] at h
  name_toString n hne := by
    obtain rfl | rfl | hnil := aliceAndBob_cases n
    · decide
    · decide
    · exact absurd hnil hne

/-- A table in the scope of one name, and two in that of the other. -/
def twoScopes : Database UInt64 where
  tables := [⟨0, 1, Eosiolib.N "alice", 5, 0, 1⟩, ⟨1, 1, Eosiolib.N "bob", 5, 0, 1⟩,
    ⟨2, 1, Eosiolib.N "bob", 6, 0, 1⟩]
  tables_sorted := by decide
  keyValues_sorted := by decide
  secondary_sorted := by decide

theorem pagesComplete_iff_twoScopes :
    PagesComplete aliceAndBob twoScopes 1 0 1 ↔
      (∀ before m e after, PageEnd twoScopes 1 0 1 before m e after →
        TakenUp aliceAndBob 0 m e after) ∧ EndIsMet aliceAndBob twoScopes 1 0 1 :=
  pagesComplete_iff namesAreText_aliceAndBob twoScopes 1 0 (by decide)

/-- With two entries a page, the second page starts with the first of two tables of one scope,
which has been the last entry of the first page. -/
theorem pagesComplete_fails :
    ¬ ∀ c, NamesAreText c → ∀ (db : Database UInt64) (code table : AccountName) (limit : ℕ),
      1 ≤ limit → PagesComplete c db code table limit := by
  intro hall
  have hcomplete := hall aliceAndBob namesAreText_aliceAndBob twoScopes 1 0 2 (by decide)
  have hfirst : scopePage aliceAndBob twoScopes 1 0 2 [] =
      some ([⟨1, Eosiolib.N "alice", 5, 0, 1⟩, ⟨1, Eosiolib.N "bob", 5, 0, 1⟩],
        some "bob".toList) := by decide
  have hsecond : scopePage aliceAndBob twoScopes 1 0 2 "bob".toList =
      some ([⟨1, Eosiolib.N "bob", 5, 0, 1⟩, ⟨1, Eosiolib.N "bob", 6, 0, 1⟩], none) := by decide
  rw [PagesComplete, Paging.collect_resume hfirst, Paging.collect_last hsecond] at hcomplete
  exact absurd hcomplete.length_eq (by decide)

end Xidata.ChainPlugin
