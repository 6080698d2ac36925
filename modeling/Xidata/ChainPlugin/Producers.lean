import Mathlib.Data.List.MinMax
import Xidata.ChainPlugin.Scopes
import Xidata.Eosiolib.Names

/-!
The producers page by page.  They are listed in the order of a secondary index, which the system
contract keeps by the votes, and the answer to `get_producers` has the name of the producer that
the next page starts with; that one is looked up by its name.  The chain library keeps both orders
of the secondary index.
-/

namespace Xidata.ChainPlugin

open Eosiolib (AccountName)

structure GetProducersParams where
  json : Bool := false
  lowerBound : List Char := []
  limit : ℕ := 50

structure GetProducersResult (V : Type) where
  rows : List V := []
  more : List Char := []
  deriving DecidableEq

inductive ProducersFailure
  | noName
  | missingTable
  | pastEnd
  deriving DecidableEq

section Query

variable {K V : Type} [LinearOrder K] (c : ChainText) (toVariant : Bool → List UInt8 → V)
  (db : Database K)

/-- Where the least entry of `by_primary` that is not before the producer is in `by_secondary`. -/
def projectedBound (t : ℕ) (lower : AccountName) : ℕ :=
  let after := db.secondary.filter fun itr => toLex (t, lower) ≤ toLex (itr.tId, itr.primaryKey)
  match after.argmin fun itr => toLex (itr.tId, itr.primaryKey) with
  | none => db.secondary.length
  | some itr => db.secondary.idxOf itr

/-- The loop over the entries of the index, with the number of rows there are. -/
def readProducers (json : Bool) (limit t : ℕ) :
    List (SecondaryIndexObject K) → ℕ → Except ProducersFailure (GetProducersResult V)
  | [], _ => .ok {}
  | itr :: rest, count =>
    if itr.tId ≠ t then .ok {}
    else if limit ≤ count then .ok { more := c.toString itr.primaryKey }
    else
      match db.findRow t itr.primaryKey with
      | none => .error .pastEnd
      | some row => (readProducers json limit t rest (count + 1)).map fun r =>
          { r with rows := toVariant json row.value :: r.rows }

/-- `systemAccount` is the account of the system contract, `producers` the name of its table, and
`lowest` the lowest key, `numeric_limits<double>::lowest()`. -/
def getProducers (systemAccount producers : AccountName) (lowest : K) (p : GetProducersParams) :
    Except ProducersFailure (GetProducersResult V) :=
  match c.name p.lowerBound with
  | none => .error .noName
  | some lower =>
    match db.findTable systemAccount systemAccount producers with
    | none => .error .missingTable
    | some t =>
      let start :=
        if lower = 0 then
          lowerPosition SecondaryIndexObject.tId SecondaryIndexObject.secondaryKey t.id
            (some lowest) db.secondary
        else projectedBound db t.id lower
      readProducers c toVariant db p.json p.limit t.id (db.secondary.drop start) 0

/-- One page of the producers. -/
def producersPage (systemAccount producers : AccountName) (lowest : K) (json : Bool) (limit : ℕ)
    (token : List Char) : Option (List V × Option (List Char)) :=
  match getProducers c toVariant db systemAccount producers lowest
    { json, limit, lowerBound := token } with
  | .error _ => none
  | .ok r => some (r.rows, if r.more = [] then none else some r.more)

/-- The rows of all producers, in the order of the index. -/
def allProducers (t : ℕ) (json : Bool) : List V :=
  (db.secondary.filter fun itr => itr.tId = t).filterMap fun itr =>
    (db.findRow t itr.primaryKey).map fun row => toVariant json row.value

end Query

/-! ### One page -/

/-- A table whose index has no more than one entry for a producer, which has a row, a name and a
key that is not below the lowest one. -/
structure Listed {K : Type} [LinearOrder K] (db : Database K) (t : ℕ) (lowest : K) : Prop where
  row : ∀ itr ∈ db.secondary, itr.tId = t → (db.findRow t itr.primaryKey).isSome
  named : ∀ itr ∈ db.secondary, itr.tId = t → itr.primaryKey ≠ 0
  lowest : ∀ itr ∈ db.secondary, itr.tId = t → lowest ≤ itr.secondaryKey
  unique : ∀ itr ∈ db.secondary, ∀ itr' ∈ db.secondary, itr.tId = t → itr'.tId = t →
    itr.primaryKey = itr'.primaryKey → itr = itr'

/-- How names and texts belong together. -/
structure NamesReadBack (c : ChainText) : Prop where
  empty : c.name [] = some 0
  ne_nil : ∀ n, n ≠ 0 → c.toString n ≠ []
  name_toString : ∀ n, n ≠ 0 → c.name (c.toString n) = some n

section Pages

variable {K V : Type} [LinearOrder K] {c : ChainText} {toVariant : Bool → List UInt8 → V}
  {db : Database K} {t limit count : ℕ} {lowest : K} {json : Bool}

/-- The rows of entries of the index. -/
def rowsOf (toVariant : Bool → List UInt8 → V) (db : Database K) (t : ℕ) (json : Bool)
    (l : List (SecondaryIndexObject K)) : List V :=
  l.filterMap fun itr => (db.findRow t itr.primaryKey).map fun row => toVariant json row.value

/-- The loop takes entries of the table until the page is full. -/
theorem readProducers_eq {es rest : List (SecondaryIndexObject K)}
    (hes : ∀ itr ∈ es, itr.tId = t ∧ (db.findRow t itr.primaryKey).isSome)
    (hrest : ∀ itr ∈ rest, itr.tId ≠ t) (hcount : count ≤ limit) :
    readProducers c toVariant db json limit t (es ++ rest) count = .ok
      { rows := rowsOf toVariant db t json (es.take (limit - count))
        more := (es[limit - count]?).elim [] fun itr => c.toString itr.primaryKey } := by
  induction es generalizing count with
  | nil =>
      cases rest with
      | nil => simp [readProducers, rowsOf]
      | cons itr rest => simp [readProducers, rowsOf, hrest itr List.mem_cons_self]
  | cons itr es ih =>
      obtain ⟨htable, hrow⟩ := hes itr List.mem_cons_self
      obtain ⟨row, hrow⟩ := Option.isSome_iff_exists.mp hrow
      rw [List.cons_append, readProducers, if_neg (not_not.mpr htable)]
      split
      · next hfull =>
          rw [show limit - count = 0 by omega]
          rfl
      · next hroom =>
          obtain ⟨left, hleft⟩ : ∃ left, limit - count = left + 1 := ⟨limit - count - 1, by omega⟩
          rw [hrow, ih (fun itr' hmem => hes itr' (List.mem_cons_of_mem _ hmem)) (by omega),
            show limit - (count + 1) = left by omega, hleft, List.take_succ_cons,
            List.getElem?_cons_succ]
          simp [Except.map, rowsOf, hrow]

/-- The entry of a producer is found by its name. -/
theorem projectedBound_eq (hlisted : Listed db t lowest) {e : SecondaryIndexObject K}
    (he : e ∈ db.secondary) (htable : e.tId = t) :
    projectedBound db t e.primaryKey = db.secondary.idxOf e := by
  obtain ⟨m, hm⟩ : ∃ m, (db.secondary.filter fun itr =>
      toLex (t, e.primaryKey) ≤ toLex (itr.tId, itr.primaryKey)).argmin
        (fun itr => toLex (itr.tId, itr.primaryKey)) = some m := by
    refine Option.ne_none_iff_exists'.mp fun hnone => ?_
    have hempty := List.argmin_eq_none.mp hnone
    refine absurd (hempty ▸ List.mem_filter.mpr ⟨he, ?_⟩ : e ∈ []) List.not_mem_nil
    rw [htable, decide_eq_true_eq]
  have hmem := List.mem_filter.mp (List.argmin_mem hm)
  have hle := of_decide_eq_true hmem.2
  have hge : toLex (m.tId, m.primaryKey) ≤ toLex (e.tId, e.primaryKey) := by
    refine List.le_of_mem_argmin
      (f := fun itr : SecondaryIndexObject K => toLex (itr.tId, itr.primaryKey))
      (List.mem_filter.mpr ⟨he, ?_⟩) hm
    rw [htable, decide_eq_true_eq]
  rw [htable] at hge
  obtain ⟨hmt, hmk⟩ := Prod.mk.inj (toLex.injective (le_antisymm hge hle))
  -- The least entry from the name on has the name itself.
  have heq : m = e := hlisted.unique m hmem.1 e he hmt htable hmk
  simp only [projectedBound, hm, heq]

/-- The index has the entries of the table together. -/
theorem secondary_eq (hlisted : Listed db t lowest) :
    ∃ first rest, db.secondary = first ++ ((db.secondary.filter fun itr => itr.tId = t) ++ rest) ∧
      lowerPosition SecondaryIndexObject.tId SecondaryIndexObject.secondaryKey t (some lowest)
        db.secondary = first.length ∧ ∀ itr ∈ rest, itr.tId ≠ t := by
  have hlower := ordered_before db.secondary_sorted_le t (some lowest)
  have hupper := ordered_beforeEnd db.secondary_sorted_le t (none : Option K)
  have hfirst := IndexRead.eq_append_filter hlower
  have hrest := IndexRead.eq_append_filter (hupper.sublist (List.filter_sublist
    (p := fun itr => !before SecondaryIndexObject.tId SecondaryIndexObject.secondaryKey t
      (some lowest) itr)))
  have hmine : (db.secondary.filter fun itr => !before SecondaryIndexObject.tId
      SecondaryIndexObject.secondaryKey t (some lowest) itr).filter
        (beforeEnd SecondaryIndexObject.tId SecondaryIndexObject.secondaryKey t none) =
          db.secondary.filter fun itr => itr.tId = t := by
    rw [List.filter_filter]
    refine List.filter_congr fun itr hitr => ?_
    rw [Bool.and_comm, between_eq, decide_eq_decide]
    refine ⟨And.left, fun htable => ⟨htable, ?_⟩⟩
    simpa [inRange] using hlisted.lowest itr hitr htable
  rw [hmine] at hrest
  refine ⟨_, _, by rw [← hrest]; exact hfirst, ?_, fun itr hitr => ?_⟩
  · have hlength := congrArg List.length (IndexRead.take_lowerBound hlower)
    rw [List.length_take, Nat.min_eq_left (IndexRead.lowerBound_le_length _ _)] at hlength
    exact hlength
  · have hnot := (List.mem_filter.mp hitr).2
    simp only [beforeEnd, before, Bool.not_eq_true', decide_eq_false_iff_not] at hnot
    omega

theorem nodup_secondary (db : Database K) : db.secondary.Nodup :=
  db.secondary_sorted.imp fun {_ _} hlt heq => by
    rw [heq] at hlt
    exact lt_irrefl _ hlt

/-- The token of a page that starts with `rest`, after the entries in `first`. -/
def StartsAt (c : ChainText) (first rest : List (SecondaryIndexObject K)) (token : List Char) :
    Prop :=
  first = [] ∧ token = [] ∨
    ∃ e after, rest = e :: after ∧ token = c.toString e.primaryKey

variable {systemAccount producers : AccountName} {table : TableIdObject}

theorem getProducers_eq (hc : NamesReadBack c)
    (htable : db.findTable systemAccount systemAccount producers = some table)
    (hlisted : Listed db table.id lowest) {first rest : List (SecondaryIndexObject K)}
    (hsplit : (db.secondary.filter fun itr => itr.tId = table.id) = first ++ rest)
    {token : List Char} (htoken : StartsAt c first rest token) :
    getProducers c toVariant db systemAccount producers lowest
        { json, limit, lowerBound := token } = .ok
        { rows := rowsOf toVariant db table.id json (rest.take limit)
          more := (rest[limit]?).elim [] fun itr => c.toString itr.primaryKey } := by
  obtain ⟨earlier, later, hindex, hlower, hlater⟩ := secondary_eq hlisted
  rw [hsplit] at hindex
  have hmine : ∀ itr ∈ rest, itr ∈ db.secondary ∧ itr.tId = table.id := fun itr hitr => by
    have hmem : itr ∈ db.secondary.filter fun itr => itr.tId = table.id :=
      hsplit ▸ List.mem_append_right _ hitr
    obtain ⟨hmem, htId⟩ := List.mem_filter.mp hmem
    exact ⟨hmem, of_decide_eq_true htId⟩
  have hread : readProducers c toVariant db json limit table.id (rest ++ later) 0 = .ok
      { rows := rowsOf toVariant db table.id json (rest.take limit)
        more := (rest[limit]?).elim [] fun itr => c.toString itr.primaryKey } :=
    readProducers_eq (fun itr hitr => ⟨(hmine itr hitr).2,
      hlisted.row itr (hmine itr hitr).1 (hmine itr hitr).2⟩) hlater (Nat.zero_le _)
  -- Without a token the page starts at the least key, otherwise at the name in the token.
  obtain ⟨rfl, rfl⟩ | ⟨e, after, rfl, rfl⟩ := htoken
  · have hdrop : db.secondary.drop (lowerPosition SecondaryIndexObject.tId
        SecondaryIndexObject.secondaryKey table.id (some lowest) db.secondary) = rest ++ later := by
      rw [hlower, hindex, List.drop_left]
      rfl
    simp only [getProducers, hc.empty, htable, if_pos]
    rw [hdrop, hread]
  · obtain ⟨hmem, htId⟩ := hmine e List.mem_cons_self
    have hne := hlisted.named e hmem htId
    have hdrop : db.secondary.drop (projectedBound db table.id e.primaryKey) =
        e :: after ++ later := by
      rw [projectedBound_eq hlisted hmem htId]
      rw [List.append_assoc, List.cons_append, ← List.append_assoc] at hindex
      have hnodup := nodup_secondary db
      rw [hindex] at hnodup ⊢
      have hnot : e ∉ earlier ++ first := fun he =>
        List.disjoint_of_nodup_append hnodup he List.mem_cons_self
      rw [List.idxOf_append_of_notMem hnot, List.idxOf_cons_self, Nat.add_zero, List.drop_left]
      rfl
    simp only [getProducers, hc.name_toString e.primaryKey hne, htable, if_neg hne]
    rw [hdrop, hread]

/-- Page by page, each time with the text of the last answer, the producers are listed in the
order of the index, each of them once. -/
theorem producers_complete (hc : NamesReadBack c)
    (htable : db.findTable systemAccount systemAccount producers = some table)
    (hlisted : Listed db table.id lowest) (hlimit : 1 ≤ limit) :
    ∃ n, Paging.collect (producersPage c toVariant db systemAccount producers lowest json limit)
      n [] = some (allProducers toVariant db table.id json) := by
  -- By induction on what is left of the table; each page takes at least one entry of it.
  suffices hpages : ∀ k first rest token, rest.length ≤ k →
      (db.secondary.filter fun itr => itr.tId = table.id) = first ++ rest →
      StartsAt c first rest token →
      Paging.collect (producersPage c toVariant db systemAccount producers lowest json limit)
        (k + 1) token = some (rowsOf toVariant db table.id json rest) from
    ⟨_, hpages _ [] _ [] le_rfl rfl (.inl ⟨rfl, rfl⟩)⟩
  intro k
  induction k with
  | zero =>
      intro first rest token hlength hsplit htoken
      obtain rfl := List.length_eq_zero_iff.mp (Nat.le_zero.mp hlength)
      rw [Paging.collect, producersPage, getProducers_eq hc htable hlisted hsplit htoken]
      simp [rowsOf]
  | succ k ih =>
      intro first rest token hlength hsplit htoken
      rw [Paging.collect, producersPage, getProducers_eq hc htable hlisted hsplit htoken]
      cases hnext : rest[limit]? with
      | none =>
          rw [List.take_of_length_le (List.getElem?_eq_none_iff.mp hnext)]
          simp
      | some e =>
          obtain ⟨hlt, hget⟩ := List.getElem?_eq_some_iff.mp hnext
          have hdrop : rest.drop limit = e :: rest.drop (limit + 1) := by
            rw [List.drop_eq_getElem_cons hlt, hget]
          have hmem : e ∈ db.secondary.filter fun itr => itr.tId = table.id :=
            hsplit ▸ List.mem_append_right _ (hget ▸ List.getElem_mem hlt)
          obtain ⟨hmem, htId⟩ := List.mem_filter.mp hmem
          have hne := hc.ne_nil e.primaryKey (hlisted.named e hmem (of_decide_eq_true htId))
          have hrest := ih (first ++ rest.take limit) (rest.drop limit)
            (c.toString e.primaryKey) (by rw [List.length_drop]; omega)
            (by rw [List.append_assoc, List.take_append_drop, hsplit]) (.inr ⟨e, _, hdrop, rfl⟩)
          have hfirst : rowsOf toVariant db table.id json (rest.take limit) ++
              rowsOf toVariant db table.id json (rest.drop limit) =
                rowsOf toVariant db table.id json rest := by
            unfold rowsOf
            rw [← List.filterMap_append, List.take_append_drop]
          dsimp only [Option.elim_some]
          rw [if_neg hne]
          dsimp only
          rw [hrest, Option.map_some, hfirst]

/-- The names of the contracts' library. -/
def libraryNames : ChainText where
  toString := Eosiolib.nameChars
  name str := some (Eosiolib.stringToName str)
  symbolFromString _ := none
  stringToSymbol _ := none

theorem namesReadBack_libraryNames : NamesReadBack libraryNames where
  empty := by decide
  ne_nil n hne hnil := hne <| by
    rw [← Eosiolib.stringToName_nameChars n, show Eosiolib.nameChars n = [] from hnil]
    rfl
  name_toString n _ := congrArg some (Eosiolib.stringToName_nameChars n)

/-- Three producers, the one with the most votes first. -/
def threeProducers : Database ℤ where
  tables := [⟨7, 1, 1, 2, 0, 3⟩]
  keyValues := [⟨7, Eosiolib.N "alice", [1]⟩, ⟨7, Eosiolib.N "bob", [2]⟩,
    ⟨7, Eosiolib.N "carol", [3]⟩]
  secondary := [⟨7, -30, Eosiolib.N "bob"⟩, ⟨7, -20, Eosiolib.N "carol"⟩,
    ⟨7, 0, Eosiolib.N "alice"⟩]
  tables_sorted := by decide
  keyValues_sorted := by decide
  secondary_sorted := by decide

theorem producers_complete_three : ∃ n, Paging.collect
    (producersPage libraryNames (fun _ value => value) threeProducers 1 2 (-100) false 2) n [] =
      some [[2], [3], [1]] :=
  producers_complete namesReadBack_libraryNames
    (show threeProducers.findTable 1 1 2 = some ⟨7, 1, 1, 2, 0, 3⟩ by decide)
    ⟨by decide, by decide, by decide, by decide⟩ (by decide)

end Pages

end Xidata.ChainPlugin
