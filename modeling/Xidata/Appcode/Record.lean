import Xidata.Appcode.Contracts
import Xidata.Eosiolib.MultiIndexWrites

/-!
A table to which rows are only ever recorded is a log: the rows stand in the
order in which they came, under the keys `0`, `1`, `2` and so on.
-/

namespace Xidata.Appcode

open Eosiolib OrderedTable

variable {T : Type} {d : Schema NoIndex T} {A : Type} {row : A → UInt64 → T} {table table' : Table}
  {l : List A} {self : AccountName}

theorem openTable_eq (d : Schema NoIndex T) (self : AccountName) (a : Rows d) :
    openTable self (a.table.mapRows d.serial.encode) = ({
      code := self
      receiver := self
      primary := ⟨a.table.mapRows d.serial.encode, []⟩
      indices := fun k => ⟨a.table.mapRows (d.secondary k), []⟩ } : MultiIndex NoIndex T) := by
  rw [openTable]
  congr
  exact funext fun k => k.elim0

/-- A recorded row goes behind the last one, as long as there is a key for it. -/
theorem record_eq (a : Rows d) {row : UInt64 → T} (hid : ∀ id, d.primaryKey (row id) = id) :
    record d self (a.table.mapRows d.serial.encode) row =
      if a.nextKey < noAvailablePrimaryKey then
        .ok ((a.put (row a.nextKey)).table.mapRows d.serial.encode)
      else .error (.assertion .multiIndex "next primary key in table is at autoincrement limit") := by
  have hm := MultiIndex.represents_new d self self a
  rw [← openTable_eq] at hm
  obtain ⟨m', hm', -, hnext, heq⟩ := hm.availablePrimaryKey
  have hkey : m'.nextPrimaryKey = a.nextKey := hnext rfl
  rw [hkey] at heq
  by_cases hlt : a.nextKey < noAvailablePrimaryKey
  · rw [eosioAssert, if_pos hlt] at heq
    have hfree : a.table.find (d.primaryKey (row a.nextKey)) = none := by
      rw [hid]
      refine Option.eq_none_iff_forall_ne_some.mpr fun r hr => ?_
      exact lt_irrefl _ ((MultiIndex.behind_nextKey a).lt hlt ⟨r, hr⟩)
    have hagree := hm'.emplace (m := openTable self (a.table.mapRows d.serial.encode))
      (fun m => do
        let id ← MultiIndex.availablePrimaryKey d m
        pure (row id.1, id.2)) rfl (by rw [heq]; rfl)
    rw [if_pos hfree] at hagree
    obtain ⟨r, hr, hlands⟩ := hagree.complete rfl
    rw [record, hr, if_pos hlt, Rollback.ok_bind, ← hlands.represents.primary]
    rfl
  · rw [eosioAssert, if_neg hlt] at heq
    have hown : (openTable self (a.table.mapRows d.serial.encode) : MultiIndex NoIndex T).code =
        (openTable self (a.table.mapRows d.serial.encode) : MultiIndex NoIndex T).receiver := rfl
    rw [record, MultiIndex.emplace, eosioAssert, if_neg hlt, if_pos hown]
    simp only [Rollback.ok_bind, heq]
    rfl

/-! ### Logs -/

/-- The table holds the arguments of `l` in order, the `i`-th under the key `i`. -/
def Logged (d : Schema NoIndex T) (row : A → UInt64 → T) (table : Table) (l : List A) : Prop :=
  l.length ≤ 0xFFFFFFFFFFFFFFFE ∧ ∃ a : Rows d, table = a.table.mapRows d.serial.encode ∧
    a.table.rows = l.mapIdx fun i x => (i.toUInt64, row x i.toUInt64)

theorem logged_nil (d : Schema NoIndex T) (row : A → UInt64 → T) : Logged d row .empty [] :=
  ⟨Nat.zero_le _, .empty, rfl, rfl⟩

theorem toNat_length (h : l.length ≤ 0xFFFFFFFFFFFFFFFE) : l.length.toUInt64.toNat = l.length := by
  rw [Nat.toUInt64, UInt64.toNat_ofNat', Nat.mod_eq_of_lt]
  omega

/-- The next key is the number of rows. -/
theorem nextKey_eq {a : Rows d} (hlen : l.length ≤ 0xFFFFFFFFFFFFFFFE)
    (hrows : a.table.rows = l.mapIdx fun i x => (i.toUInt64, row x i.toUInt64)) :
    a.nextKey = l.length.toUInt64 := by
  rw [Rows.nextKey, OrderedTable.last, hrows]
  rcases List.eq_nil_or_concat l with rfl | ⟨l, x, rfl⟩
  · rfl
  · rw [List.concat_eq_append] at hlen ⊢
    rw [List.length_append, List.length_singleton] at hlen ⊢
    have hfree : ¬ noAvailablePrimaryKey ≤ l.length.toUInt64 := by
      rw [UInt64.le_iff_toNat_le, toNat_length (Nat.le_of_succ_le hlen)]
      exact not_le.mpr hlen
    rw [List.mapIdx_concat, List.reverse_append]
    show (if noAvailablePrimaryKey ≤ l.length.toUInt64 then _ else l.length.toUInt64 + 1) = _
    rw [if_neg hfree]
    exact (UInt64.ofNat_add l.length 1).symm

/-- A row that is recorded is the next one, and leaves all others in place. -/
theorem Logged.record (h : Logged d row table l) (hid : ∀ x id, d.primaryKey (row x id) = id) {x : A}
    (hr : Appcode.record d self table (row x) = .ok table') :
    Logged d row table' (l ++ [x]) ∧ table.rows <+: table'.rows := by
  obtain ⟨hlen, a, rfl, hrows⟩ := h
  rw [record_eq a (hid x)] at hr
  have hkey := nextKey_eq hlen hrows
  split at hr
  · rename_i hlt
    obtain rfl := Except.ok.inj hr
    have hshort : l.length < 0xFFFFFFFFFFFFFFFE := by
      rwa [hkey, UInt64.lt_iff_toNat_lt, toNat_length hlen] at hlt
    have hput : (a.put (row x a.nextKey)).table.rows =
        a.table.rows ++ [(a.nextKey, row x a.nextKey)] := by
      have hset := rows_set_of_lt (fun pk r hr =>
        (MultiIndex.behind_nextKey a).lt hlt ⟨r, hr⟩) (row x a.nextKey)
      show (a.table.set (d.primaryKey (row x a.nextKey)) _).rows = _
      rw [hid, hset]
    refine ⟨⟨?_, _, rfl, ?_⟩, ?_⟩
    · rw [List.length_append]
      exact hshort
    · rw [hput, hrows, hkey, List.mapIdx_concat]
    · show a.table.rows.map _ <+: (a.put _).table.rows.map _
      rw [hput, List.map_append]
      exact List.prefix_append _ _
  · cases hr

/-- What a reader unpacks. -/
theorem Logged.unpack (h : Logged d row table l) :
    table.rows.map (fun p => (p.1, d.serial.unpack p.2)) =
      l.mapIdx fun i x => (i.toUInt64, .ok (row x i.toUInt64)) := by
  obtain ⟨-, a, rfl, hrows⟩ := h
  show (a.table.rows.map _).map _ = _
  rw [List.map_map, hrows, List.mapIdx_eq_zipIdx_map, List.mapIdx_eq_zipIdx_map, List.map_map]
  refine List.map_congr_left fun p _ => ?_
  show (p.2.toUInt64, d.serial.unpack (d.serial.encode (row p.1 p.2.toUInt64))) = _
  rw [d.serial.unpack_encode]

end Xidata.Appcode
