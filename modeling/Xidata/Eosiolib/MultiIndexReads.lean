import Xidata.Eosiolib.MultiIndexInvariant

/-!
Every way to read a `multi_index` ends at the object that the map has there,
and leaves the map, and the objects already known, as they are.
-/

namespace Xidata.Eosiolib

open OrderedTable

variable {n : ℕ} {σ : Fin n → Type} {T : Type} {d : Schema σ T}

namespace MultiIndex

/-- The iterator is at the object with this primary key, or at the end. -/
def IsAt (d : Schema σ T) (m : MultiIndex σ T) : Iterator → Option UInt64 → Prop
  | none, none => True
  | some address, some pk => ∃ i ∈ m.items, i.address = address ∧ d.primaryKey i.value = pk
  | _, _ => False

/-- A read that ends at `o`. -/
structure Lands (m : MultiIndex σ T) (a : Rows d) (r : Iterator × MultiIndex σ T)
    (o : Option UInt64) : Prop where
  represents : Represents r.2 a
  grown : Grown d m r.2
  isAt : IsAt d r.2 r.1 o

variable {m : MultiIndex σ T} {a : Rows d} {i : Item n T}

/-! ### Objects come into memory -/

theorem nodup_map_append {ι κ : Type} {f : ι → κ} {l : List ι} {x : ι} (h : (l.map f).Nodup)
    (hx : ∀ y ∈ l, f y ≠ f x) : ((l ++ [x]).map f).Nodup := by
  have hne : f x ∉ l.map f := fun hmem => by
    obtain ⟨y, hy, heq⟩ := List.mem_map.mp hmem
    exact hx y hy heq
  rw [List.map_append, List.map_singleton, ← List.concat_eq_append]
  exact h.concat hne

theorem Represents.allocate (h : Represents m a) {value : T} {itr : ℤ} {iters : Fin n → ℤ}
    (hok : ItemOk d m a ⟨m.nextAddress, value, itr, iters⟩)
    (hnew : ∀ j ∈ m.items, d.primaryKey j.value ≠ d.primaryKey value) :
    Represents (m.allocate value itr iters).2 a where
  primary := h.primary
  primaryValid := h.primaryValid
  indices := h.indices
  indicesValid := h.indicesValid
  items j hj := by
    rcases List.mem_append.mp hj with hj | hj
    · exact ⟨(h.items j hj).row, (h.items j hj).itr, (h.items j hj).iters⟩
    · rw [List.mem_singleton.mp hj]
      exact ⟨hok.row, hok.itr, hok.iters⟩
  addresses := nodup_map_append h.addresses fun j hj => (h.fresh j hj).ne
  keys := nodup_map_append h.keys hnew
  fresh j hj := by
    rcases List.mem_append.mp hj with hj | hj
    · exact (h.fresh j hj).trans (Nat.lt_succ_self _)
    · rw [List.mem_singleton.mp hj]
      exact Nat.lt_succ_self _
  nextKey := h.nextKey

theorem grown_allocate (m : MultiIndex σ T) (value : T) (itr : ℤ) (iters : Fin n → ℤ) :
    Grown d m (m.allocate value itr iters).2 where
  same := ⟨rfl, rfl⟩
  kept j hj := ⟨j, List.mem_append_left _ hj, rfl, rfl⟩
  old j hj hlt := by
    rcases List.mem_append.mp hj with hj | hj
    · exact ⟨j, hj, rfl⟩
    · rw [List.mem_singleton.mp hj] at hlt
      exact absurd hlt (lt_irrefl _)
  next := Nat.le_succ _
  iterators k := .refl _

theorem Represents.primary_find (h : Represents m a) (pk : UInt64) :
    m.primary.rows.find pk = (a.table.find pk).map d.serial.encode := by
  rw [h.primary, find_mapRows]

/-- The object of a row that an iterator belongs to. -/
theorem Represents.load (h : Represents m a) {itr : ℤ} {pk : UInt64}
    (hitr : m.primary.primaryAt itr = some pk) :
    ∃ r, loadObjectByPrimaryIterator d m itr = .ok r ∧ Represents r.2 a ∧ Grown d m r.2 ∧
      r.1 ∈ r.2.items ∧ d.primaryKey r.1.value = pk := by
  rw [loadObjectByPrimaryIterator]
  cases hfind : m.items.reverse.find? fun i => i.primaryItr = itr with
  | some i =>
      have hi : i ∈ m.items := List.mem_reverse.mp (List.mem_of_find?_eq_some hfind)
      have hsame : i.primaryItr = itr := by simpa using List.find?_some hfind
      have hkey := (h.items i hi).itr
      rw [hsame, hitr] at hkey
      exact ⟨(i, m), rfl, h, Grown.refl m, hi, (Option.some.inj hkey).symm⟩
  | none =>
      obtain ⟨row, hrow⟩ : ∃ row, a.table.find pk = some row := by
        have hlive := h.primaryValid.live itr pk hitr
        rw [h.primary_find, ne_eq, Option.map_eq_none_iff] at hlive
        exact Option.ne_none_iff_exists'.mp hlive
      have hkey : d.primaryKey row = pk := a.keyed pk row hrow
      have hget : m.primary.dbGet itr = .ok (d.serial.encode row) := by
        rw [DbTable.dbGet, Rollback.map_eq_ok]
        refine ⟨(pk, d.serial.encode row), DbTable.rowAt_eq_ok.mpr ⟨hitr, ?_⟩, rfl⟩
        rw [h.primary_find, hrow, Option.map_some]
      have hnew : ∀ j ∈ m.items, d.primaryKey j.value ≠ d.primaryKey row := fun j hj heq => by
        have hj' := (h.items j hj).itr
        rw [heq, hkey] at hj'
        have hsame := h.primaryValid.unique _ _ pk hj' hitr
        have hmiss := List.find?_eq_none.mp hfind j (List.mem_reverse.mpr hj)
        exact hmiss (decide_eq_true hsame)
      have hok : ItemOk d m a ⟨m.nextAddress, row, itr, fun _ => -1⟩ :=
        ⟨hkey ▸ hrow, hkey ▸ hitr, fun k => .inl rfl⟩
      refine ⟨m.allocate row itr fun _ => -1, ?_, h.allocate hok hnew, grown_allocate m _ _ _,
        List.mem_append_right _ (List.mem_singleton.mpr rfl), hkey⟩
      simp only [hget, Rollback.ok_bind, d.serial.unpack_encode]
      rfl

/-- The object of a row that was looked up. -/
theorem Represents.reach (h : Represents m a) {p : Option (UInt64 × Bytes)}
    (hp : ∀ q, p = some q → m.primary.rows.find q.1 ≠ none) :
    ∃ r, reach d m (m.primary.iteratorTo p) = .ok r ∧ Lands m a r (p.map Prod.fst) := by
  have hfound := h.primaryValid.iteratorTo hp
  have hm := h.withPrimary hfound
  rw [MultiIndex.reach]
  cases p with
  | none =>
      rw [if_pos (hfound.none rfl)]
      exact ⟨_, rfl, hm, ⟨⟨rfl, rfl⟩, fun i hi => ⟨i, hi, rfl, rfl⟩, fun i hi _ => ⟨i, hi, rfl⟩,
        le_refl _, fun k => .refl _⟩, trivial⟩
  | some q =>
      have hitr := (hfound.some q rfl).2
      have hpos := DbTable.nonneg_of_primaryAt hitr
      obtain ⟨r, hr, hrep, hgrown, hmem, hkey⟩ := hm.load hitr
      rw [if_neg (not_lt.mpr hpos), hr]
      refine ⟨_, rfl, hrep, ?_, r.1, hmem, rfl, hkey⟩
      exact ⟨hgrown.same, hgrown.kept, hgrown.old, hgrown.next, hgrown.iterators⟩

/-- The object that a read has landed at. -/
theorem Lands.object {r : Iterator × MultiIndex σ T} {pk : UInt64} (h : Lands m a r (some pk)) :
    ∃ i ∈ r.2.items, r.1 = some i.address ∧ r.2.object i.address = .ok i ∧
      d.primaryKey i.value = pk := by
  obtain ⟨it, m'⟩ := r
  cases it with
  | none => exact h.isAt.elim
  | some address =>
      obtain ⟨i, hi, rfl, hkey⟩ := h.isAt
      exact ⟨i, hi, rfl, h.represents.object_eq hi, hkey⟩

theorem Lands.end_ {r : Iterator × MultiIndex σ T} (h : Lands m a r none) : r.1 = none := by
  obtain ⟨it, m'⟩ := r
  cases it with
  | none => rfl
  | some address => exact h.isAt.elim

/-! ### Reads of the table -/

theorem Represents.first (h : Represents m a) (p : UInt64 → Bool) :
    (m.primary.rows.first p).map Prod.fst = (a.table.first p).map Prod.fst := by
  rw [h.primary, first_mapRows, Option.map_map]
  rfl

theorem Represents.last (h : Represents m a) (p : UInt64 → Bool) :
    (m.primary.rows.last p).map Prod.fst = (a.table.last p).map Prod.fst := by
  rw [h.primary, last_mapRows, Option.map_map]
  rfl

theorem find_ne_none {ρ : Type} {t : OrderedTable UInt64 ρ} {q : UInt64 × ρ}
    (h : t.find q.1 = some q.2) : t.find q.1 ≠ none := fun hnone => by
  rw [hnone] at h
  cases h

theorem Represents.lowerBound (h : Represents m a) (pk : UInt64) :
    ∃ r, lowerBound d m pk = .ok r ∧ Lands m a r ((a.table.first fun k => pk ≤ k).map Prod.fst) :=
  h.first _ ▸ h.reach fun _ hq => find_ne_none (find_of_first hq)

theorem Represents.upperBound (h : Represents m a) (pk : UInt64) :
    ∃ r, upperBound d m pk = .ok r ∧ Lands m a r ((a.table.first fun k => pk < k).map Prod.fst) :=
  h.first _ ▸ h.reach fun _ hq => find_ne_none (find_of_first hq)

theorem Represents.find (h : Represents m a) (pk : UInt64) :
    ∃ r, find d m pk = .ok r ∧ Lands m a r ((a.table.find pk).map fun _ => pk) := by
  rw [MultiIndex.find]
  cases hfind : m.items.reverse.find? fun i => d.primaryKey i.value = pk with
  | some i =>
      have hi : i ∈ m.items := List.mem_reverse.mp (List.mem_of_find?_eq_some hfind)
      have hkey : d.primaryKey i.value = pk := by simpa using List.find?_some hfind
      have hrow := (h.items i hi).row
      rw [hkey] at hrow
      rw [hrow]
      exact ⟨_, rfl, h, Grown.refl m, i, hi, rfl, hkey⟩
  | none =>
      have hreach := h.reach (p := (m.primary.rows.find pk).map fun row => (pk, row)) fun q hq => by
        obtain ⟨row, hrow, rfl⟩ := Option.map_eq_some_iff.mp hq
        exact find_ne_none hrow
      have hfst : ((m.primary.rows.find pk).map fun row => (pk, row)).map Prod.fst =
          (a.table.find pk).map fun _ => pk := by
        rw [h.primary_find, Option.map_map, Option.map_map]
        rfl
      exact hfst ▸ hreach

theorem Represents.rowAt (h : Represents m a) (hi : i ∈ m.items) :
    m.primary.rowAt i.primaryItr = .ok (d.primaryKey i.value, d.serial.encode i.value) := by
  refine DbTable.rowAt_eq_ok.mpr ⟨(h.items i hi).itr, ?_⟩
  rw [h.primary_find, (h.items i hi).row, Option.map_some]

theorem Represents.next (h : Represents m a) (hi : i ∈ m.items) :
    ∃ r, next d m (some i.address) = .ok r ∧
      Lands m a r ((a.table.first fun k => d.primaryKey i.value < k).map Prod.fst) := by
  have hreach := h.reach (p := m.primary.rows.first fun k => d.primaryKey i.value < k)
    fun _ hq => find_ne_none (find_of_first hq)
  rw [h.first] at hreach
  simpa only [MultiIndex.next, h.object_eq hi, DbTable.dbNext, h.rowAt hi, Rollback.ok_bind,
    pure_bind] using hreach

/-- A read that asserts that it has found a row. -/
theorem Represents.reachRow (h : Represents m a) {p : Option (UInt64 × Bytes)}
    (hp : ∀ q, p = some q → m.primary.rows.find q.1 ≠ none) (msg : String) :
    Rollback.Agree (fun r pk => Lands m a r (some pk))
      (do
        eosioAssert .multiIndex (0 ≤ (m.primary.iteratorTo p).itr) msg
        MultiIndex.reach d m (m.primary.iteratorTo p)) (p.map Prod.fst) := by
  have hfound := h.primaryValid.iteratorTo hp
  obtain ⟨r, hr, hlands⟩ := h.reach hp
  cases p with
  | none =>
      rw [eosioAssert, if_neg (not_le.mpr (hfound.none rfl))]
      exact .fail _
  | some q =>
      have hpos := DbTable.nonneg_of_primaryAt (hfound.some q rfl).2
      rw [eosioAssert, if_pos hpos, Rollback.ok_bind, hr]
      exact .ok hlands

theorem Represents.prev (h : Represents m a) (hi : i ∈ m.items) :
    Rollback.Agree (fun r pk => Lands m a r (some pk)) (MultiIndex.prev d m (some i.address))
      ((a.table.last fun k => k < d.primaryKey i.value).map Prod.fst) := by
  have hpos := DbTable.nonneg_of_primaryAt (h.items i hi).itr
  have hend : i.primaryItr ≠ DbTable.endIterator := fun heq => by
    rw [heq] at hpos
    exact absurd hpos (by decide)
  have hreach := h.reachRow (p := m.primary.rows.last fun k => k < d.primaryKey i.value)
    (fun _ hq => find_ne_none (find_of_last hq)) "cannot decrement iterator at beginning of table"
  rw [h.last] at hreach
  simpa only [MultiIndex.prev, h.object_eq hi, DbTable.dbPrevious, if_neg hend, h.rowAt hi,
    Rollback.ok_bind, pure_bind] using hreach

theorem Represents.prev_end (h : Represents m a) :
    Rollback.Agree (fun r pk => Lands m a r (some pk)) (MultiIndex.prev d m none)
      ((a.table.last fun _ => true).map Prod.fst) := by
  have hreach := h.reachRow (p := m.primary.rows.last fun _ => true)
    (fun _ hq => find_ne_none (find_of_last hq)) "cannot decrement end iterator when the table is empty"
  rw [h.last] at hreach
  rw [MultiIndex.prev, DbTable.dbEnd]
  by_cases hrows : m.primary.rows.rows.isEmpty
  · have hnone : m.primary.rows.last (fun _ => true) = none := by
      rw [OrderedTable.last, List.isEmpty_iff.mp hrows]
      rfl
    rw [← h.last, hnone, if_pos hrows, eosioAssert, if_neg (not_not.mpr rfl)]
    exact .fail _
  · rw [if_neg hrows, eosioAssert, if_pos (by decide)]
    simpa only [DbTable.dbPrevious, if_true, Rollback.ok_bind, pure_bind] using hreach

/-! ### Reads of an index -/

theorem Represents.index_find (h : Represents m a) (k : Fin n) (pk : UInt64) :
    (m.indices k).rows.find pk = (a.table.find pk).map (d.secondary k) := by
  rw [h.indices, find_mapRows]

/-- An index whose iterators have been added to. -/
structure Index (m : MultiIndex σ T) (k : Fin n) (t : DbTable (σ k)) : Prop where
  rows : t.rows = (m.indices k).rows
  valid : t.Valid
  keeps : (m.indices k).Keeps t

theorem Represents.index (h : Represents m a) (k : Fin n) : Index m k (m.indices k) :=
  ⟨rfl, h.indicesValid k, .refl _⟩

theorem grown_withIndex {k : Fin n} {t : DbTable (σ k)} (hkeeps : (m.indices k).Keeps t) :
    Grown d m { m with indices := Function.update m.indices k t } where
  same := ⟨rfl, rfl⟩
  kept i hi := ⟨i, hi, rfl, rfl⟩
  old i hi _ := ⟨i, hi, rfl⟩
  next := le_refl _
  iterators k' := by
    show (m.indices k').Keeps (Function.update m.indices k t k')
    by_cases hk : k' = k
    · subst hk
      rwa [Function.update_self]
    · rw [Function.update_of_ne hk]
      exact .refl _

/-- One more iterator of its row for an object. -/
theorem ItemOk.setIter (h : ItemOk d m a i) {k : Fin n} {itr : ℤ}
    (hitr : (m.indices k).primaryAt itr = some (d.primaryKey i.value)) :
    ItemOk d m a { i with iters := Function.update i.iters k itr } where
  row := h.row
  itr := h.itr
  iters k' := by
    show Function.update i.iters k itr k' = -1 ∨
      (m.indices k').primaryAt (Function.update i.iters k itr k') = _
    by_cases hk : k' = k
    · subst hk
      rw [Function.update_self]
      exact .inr hitr
    · rw [Function.update_of_ne hk]
      exact h.iters k'

/-- The object of a row that was looked up in an index. -/
theorem Represents.reachBy (h : Represents m a) {k : Fin n} {t : DbTable (σ k)} (ht : Index m k t)
    {p : Option (UInt64 × σ k)} (hp : ∀ q, p = some q → t.rows.find q.1 ≠ none) :
    ∃ r, MultiIndex.reachBy d m k (t.iteratorTo p) = .ok r ∧ Lands m a r (p.map Prod.fst) := by
  have hfound := ht.valid.iteratorTo hp
  have hkeeps : (m.indices k).Keeps (t.iteratorTo p).table := ht.keeps.trans hfound.keeps
  have hm := h.withIndex k (hfound.rows.trans ht.rows) hfound.valid hkeeps
  have hgrown : Grown d m _ := grown_withIndex hkeeps
  rw [MultiIndex.reachBy]
  cases p with
  | none =>
      rw [if_pos (hfound.none rfl)]
      exact ⟨_, rfl, hm, hgrown, trivial⟩
  | some q =>
      obtain ⟨hprimary, hitr⟩ := hfound.some q rfl
      have hpos := DbTable.nonneg_of_primaryAt hitr
      obtain ⟨row, hrow⟩ : ∃ row, a.table.find q.1 = some row := by
        have hlive := hp q rfl
        rw [ht.rows, h.index_find, ne_eq, Option.map_eq_none_iff] at hlive
        exact Option.ne_none_iff_exists'.mp hlive
      obtain ⟨⟨it, m'⟩, hr, hrep, hgrown', hat⟩ := hm.find q.1
      rw [hrow, Option.map_some] at hat
      obtain ⟨address, rfl⟩ : ∃ address, it = some address := by
        cases it with
        | none => exact hat.elim
        | some address => exact ⟨address, rfl⟩
      obtain ⟨i, hi, rfl, hkey⟩ := hat
      have hindex : (m'.indices k).primaryAt (t.iteratorTo (some q)).itr = some q.1 := by
        refine hgrown'.iterators k _ _ ?_
        show (Function.update m.indices k _ k).primaryAt _ = _
        rwa [Function.update_self]
      have hok : ItemOk d m' a
          { i with iters := Function.update i.iters k (t.iteratorTo (some q)).itr } :=
        (hrep.items i hi).setIter (hkey ▸ hindex)
      rw [if_neg (not_lt.mpr hpos), hprimary]
      simp only [hr, Rollback.ok_bind, getRow, hrep.object_eq hi]
      refine ⟨_, rfl, hrep.update hi rfl rfl hok,
        (hgrown.trans hgrown').trans (hrep.grown_update hi rfl rfl), _,
        mem_update_self hi rfl, rfl, hkey⟩

/-- The iterator of an object in an index, once it has been looked up. -/
theorem Represents.fill (h : Represents m a) (hi : i ∈ m.items) (k : Fin n) {missing : Bool}
    (hmissing : missing = false → i.iters k ≠ -1) :
    Index m k (MultiIndex.fill d m k i missing).2 ∧
      (MultiIndex.fill d m k i missing).2.primaryAt (MultiIndex.fill d m k i missing).1 =
        some (d.primaryKey i.value) := by
  rw [MultiIndex.fill]
  cases missing with
  | true =>
      have hrow := h.index_find k (d.primaryKey i.value)
      rw [(h.items i hi).row, Option.map_some] at hrow
      have hfound := (h.indicesValid k).iteratorTo
        (p := some (d.primaryKey i.value, d.secondary k i.value)) fun q hq => by
          cases hq
          exact find_ne_none hrow
      rw [if_pos rfl, DbTable.dbFind, hrow]
      exact ⟨⟨hfound.rows, hfound.valid, hfound.keeps⟩, (hfound.some _ rfl).2⟩
  | false =>
      rw [if_neg Bool.false_ne_true]
      exact ⟨h.index k, ((h.items i hi).iters k).resolve_left (hmissing rfl)⟩

/-- An object with its iterator in an index filled in. -/
theorem Represents.filled (h : Represents m a) (k : Fin n) (hi : i ∈ m.items) :
    Represents (MultiIndex.filled d m k i).2 a ∧ Grown d m (MultiIndex.filled d m k i).2 ∧
      ((MultiIndex.filled d m k i).2.indices k).rowAt (MultiIndex.filled d m k i).1 =
        .ok (d.primaryKey i.value, d.secondary k i.value) := by
  have hfill : Index m k (MultiIndex.fill d m k i (decide (i.iters k = -1))).2 ∧ _ :=
    h.fill hi k of_decide_eq_false
  rw [MultiIndex.filled]
  generalize MultiIndex.fill d m k i (decide (i.iters k = -1)) = r at hfill ⊢
  obtain ⟨hindex, hitr⟩ := hfill
  have hm := h.withIndex k hindex.rows hindex.valid hindex.keeps
  have hgrown : Grown d m _ := grown_withIndex hindex.keeps
  have hself : Function.update m.indices k r.2 k = r.2 := Function.update_self ..
  have hok : ItemOk d { m with indices := Function.update m.indices k r.2 } a
      { i with iters := Function.update i.iters k r.1 } := by
    refine (hm.items i hi).setIter ?_
    show (Function.update m.indices k r.2 k).primaryAt r.1 = _
    rw [hself, hitr]
  refine ⟨hm.update hi rfl rfl hok, hgrown.trans (hm.grown_update hi rfl rfl), ?_⟩
  refine DbTable.rowAt_eq_ok.mpr ?_
  show (Function.update m.indices k r.2 k).primaryAt r.1 = _ ∧
    (Function.update m.indices k r.2 k).rows.find _ = _
  rw [hself, hindex.rows, h.index_find, (h.items i hi).row]
  exact ⟨hitr, rfl⟩

theorem Lands.of_grown {m' : MultiIndex σ T} {r : Iterator × MultiIndex σ T} {o : Option UInt64}
    (hgrown : Grown d m m') (h : Lands m' a r o) : Lands m a r o :=
  ⟨h.represents, hgrown.trans h.grown, h.isAt⟩

section Secondary

variable [∀ k, LinearOrder (σ k)] (k : Fin n)

theorem Index.firstBy {t : DbTable (σ k)} (ht : Index m k t) (h : Represents m a)
    (p : σ k ×ₗ UInt64 → Bool) :
    (t.rows.firstBy id p).map Prod.fst = (a.table.firstBy (d.secondary k) p).map Prod.fst := by
  rw [ht.rows, h.indices, firstBy_mapRows, Option.map_map]
  rfl

theorem Index.lastBy {t : DbTable (σ k)} (ht : Index m k t) (h : Represents m a)
    (p : σ k ×ₗ UInt64 → Bool) :
    (t.rows.lastBy id p).map Prod.fst = (a.table.lastBy (d.secondary k) p).map Prod.fst := by
  rw [ht.rows, h.indices, lastBy_mapRows, Option.map_map]
  rfl

/-- The object of the first row in an index that satisfies `p`. -/
theorem Represents.reachFirstBy (h : Represents m a) {t : DbTable (σ k)} (ht : Index m k t)
    (p : σ k ×ₗ UInt64 → Bool) :
    ∃ r, MultiIndex.reachBy d m k (t.iteratorTo (t.rows.firstBy id p)) = .ok r ∧
      Lands m a r ((a.table.firstBy (d.secondary k) p).map Prod.fst) :=
  ht.firstBy k h p ▸ h.reachBy ht fun _ hq => find_ne_none (find_of_firstBy hq)

/-- An assertion that there is a last row in an index that satisfies `p`. -/
theorem Represents.reachLastBy (h : Represents m a) {t : DbTable (σ k)} (ht : Index m k t)
    (p : σ k ×ₗ UInt64 → Bool) (msg : String) :
    Rollback.Agree (fun r pk => Lands m a r (some pk))
      (do
        eosioAssert .multiIndex (0 ≤ (t.iteratorTo (t.rows.lastBy id p)).itr) msg
        MultiIndex.reachBy d m k (t.iteratorTo (t.rows.lastBy id p)))
      ((a.table.lastBy (d.secondary k) p).map Prod.fst) := by
  have hp : ∀ q, t.rows.lastBy id p = some q → t.rows.find q.1 ≠ none :=
    fun _ hq => find_ne_none (find_of_lastBy hq)
  have hfound := ht.valid.iteratorTo hp
  obtain ⟨r, hr, hlands⟩ := h.reachBy ht hp
  rw [← ht.lastBy k h]
  cases hlast : t.rows.lastBy id p with
  | none =>
      rw [hlast] at hfound
      rw [eosioAssert, if_neg (not_le.mpr (hfound.none rfl))]
      exact .fail _
  | some q =>
      rw [hlast] at hfound hr hlands
      have hpos := DbTable.nonneg_of_primaryAt (hfound.some q rfl).2
      rw [eosioAssert, if_pos hpos, Rollback.ok_bind, hr]
      exact .ok hlands

theorem Represents.lowerBoundBy (h : Represents m a) (secondary : σ k) :
    ∃ r, MultiIndex.lowerBoundBy d m k secondary = .ok r ∧ Lands m a r
      ((a.table.firstBy (d.secondary k) fun q => secondary ≤ (ofLex q).1).map Prod.fst) :=
  h.reachFirstBy k (h.index k) _

theorem Represents.upperBoundBy (h : Represents m a) (secondary : σ k) :
    ∃ r, MultiIndex.upperBoundBy d m k secondary = .ok r ∧ Lands m a r
      ((a.table.firstBy (d.secondary k) fun q => secondary < (ofLex q).1).map Prod.fst) :=
  h.reachFirstBy k (h.index k) _

theorem Represents.findBy (h : Represents m a) (secondary : σ k) :
    ∃ r, MultiIndex.findBy d m k secondary = .ok r ∧ Lands m a r
      ((a.table.firstBy (d.secondary k) fun q => (ofLex q).1 = secondary).map Prod.fst) := by
  obtain ⟨r, hr, hlands⟩ := h.lowerBoundBy k secondary
  rw [MultiIndex.findBy, hr, firstBy_eq_filter, Rollback.ok_bind]
  cases hfirst : a.table.firstBy (d.secondary k) fun q => secondary ≤ (ofLex q).1 with
  | none =>
      rw [hfirst] at hlands
      rw [hlands.end_]
      exact ⟨r, rfl, hlands⟩
  | some q =>
      rw [hfirst] at hlands
      obtain ⟨i, hi, haddress, hobject, hkey⟩ := hlands.object
      have hrow : i.value = q.2 := by
        have hfound := (hlands.represents.items i hi).row
        rw [hkey, find_of_firstBy hfirst] at hfound
        exact (Option.some.inj hfound).symm
      rw [haddress]
      simp only [hobject, Rollback.ok_bind, hrow]
      by_cases hs : d.secondary k q.2 = secondary
      · rw [if_neg (not_not.mpr hs.symm), Option.filter_some, if_pos (decide_eq_true hs)]
        exact ⟨r, rfl, hlands⟩
      · rw [if_pos (Ne.symm hs), Option.filter_some, if_neg (by simpa using hs)]
        exact ⟨_, rfl, hlands.represents, hlands.grown, trivial⟩

theorem Represents.nextBy (h : Represents m a) (hi : i ∈ m.items) :
    ∃ r, MultiIndex.nextBy d m k (some i.address) = .ok r ∧ Lands m a r
      ((a.table.firstBy (d.secondary k) fun q =>
        toLex (d.secondary k i.value, d.primaryKey i.value) < q).map Prod.fst) := by
  obtain ⟨hm, hgrown, hrow⟩ := h.filled k hi
  obtain ⟨r, hr, hlands⟩ := hm.reachFirstBy k (hm.index k)
    fun q => toLex (d.secondary k i.value, d.primaryKey i.value) < q
  refine ⟨r, ?_, hlands.of_grown hgrown⟩
  simpa only [MultiIndex.nextBy, h.object_eq hi, DbTable.dbIdxNext, hrow, Rollback.ok_bind,
    pure_bind] using hr

theorem Represents.prevBy (h : Represents m a) (hi : i ∈ m.items) :
    Rollback.Agree (fun r pk => Lands m a r (some pk)) (MultiIndex.prevBy d m k (some i.address))
      ((a.table.lastBy (d.secondary k) fun q =>
        q < toLex (d.secondary k i.value, d.primaryKey i.value)).map Prod.fst) := by
  obtain ⟨hm, hgrown, hrow⟩ := h.filled k hi
  have hend : (MultiIndex.filled d m k i).1 ≠ DbTable.endIterator := fun heq => by
    have hpos := DbTable.nonneg_of_primaryAt (DbTable.rowAt_eq_ok.mp hrow).1
    rw [heq] at hpos
    exact absurd hpos (by decide)
  have hreach := (hm.reachLastBy k (hm.index k)
    (fun q => q < toLex (d.secondary k i.value, d.primaryKey i.value))
    "cannot decrement iterator at beginning of index").imp fun r pk => Lands.of_grown hgrown
  simpa only [MultiIndex.prevBy, h.object_eq hi, DbTable.dbIdxPrevious, if_neg hend, hrow,
    Rollback.ok_bind, pure_bind] using hreach

theorem Represents.prevBy_end (h : Represents m a) :
    Rollback.Agree (fun r pk => Lands m a r (some pk)) (MultiIndex.prevBy d m k none)
      ((a.table.lastBy (d.secondary k) fun _ => true).map Prod.fst) := by
  have hreach := h.reachLastBy k (h.index k) (fun _ => true)
    "cannot decrement end iterator when the index is empty"
  rw [MultiIndex.prevBy, DbTable.dbEnd]
  by_cases hrows : (m.indices k).rows.rows.isEmpty
  · have hnone : (m.indices k).rows.lastBy id (fun _ => true) = none := by
      rw [OrderedTable.lastBy, OrderedTable.index, List.isEmpty_iff.mp hrows]
      rfl
    rw [← (h.index k).lastBy k h, hnone, if_pos hrows, eosioAssert, if_neg (not_not.mpr rfl)]
    exact .fail _
  · rw [if_neg hrows, eosioAssert, if_pos (by decide)]
    simpa only [DbTable.dbIdxPrevious, if_true, Rollback.ok_bind, pure_bind] using hreach

end Secondary

end MultiIndex

end Xidata.Eosiolib
