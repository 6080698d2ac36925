import Xidata.Eosiolib.MultiIndexReads

/-!
What is written through a `multi_index` is written to the map: a new object is
put, a modified one replaces its row, an erased one is removed, and the next
primary key stays behind all keys of the map.
-/

namespace Xidata.Eosiolib

open OrderedTable

variable {n : ℕ} {σ : Fin n → Type} {T : Type} {d : Schema σ T}

/-- The key behind the last one. -/
def Rows.nextKey (a : Rows d) : UInt64 :=
  match a.table.last fun _ => true with
  | none => 0
  | some q => if noAvailablePrimaryKey ≤ q.1 then noAvailablePrimaryKey else q.1 + 1

namespace MultiIndex

variable {m m' : MultiIndex σ T} {a : Rows d} {i : Item n T} {obj : T}

/-! ### The next primary key -/

theorem lt_next {pk : UInt64} (h : ¬ noAvailablePrimaryKey ≤ pk) : pk < pk + 1 := by
  have hpk : pk.toNat < 0xFFFFFFFFFFFFFFFE := UInt64.lt_iff_toNat_lt.mp (not_le.mp h)
  rw [UInt64.lt_iff_toNat_lt, UInt64.toNat_add, UInt64.toNat_one]
  omega

/-- What `Represents` says of the next key, for the keys that satisfy `P`. -/
def Behind (P : UInt64 → Prop) (next : UInt64) : Prop :=
  next = unsetNextPrimaryKey ∨ next = noAvailablePrimaryKey ∨ ∀ pk, P pk → pk < next

theorem behind_nextKey (a : Rows d) : Behind (fun pk => ∃ row, a.table.find pk = some row)
    a.nextKey := by
  rw [Rows.nextKey]
  cases hlast : a.table.last fun _ => true with
  | none =>
      refine .inr (.inr fun pk ⟨row, hrow⟩ => ?_)
      rw [last_eq_none hlast] at hrow
      cases hrow
  | some q =>
      by_cases hfull : noAvailablePrimaryKey ≤ q.1
      · exact .inr (.inl (if_pos hfull))
      · refine .inr (.inr fun pk ⟨row, hrow⟩ => ?_)
        show pk < if noAvailablePrimaryKey ≤ q.1 then noAvailablePrimaryKey else q.1 + 1
        rw [if_neg hfull]
        exact lt_of_le_of_lt (le_of_last hlast hrow) (lt_next hfull)

theorem Behind.advance {P : UInt64 → Prop} {next : UInt64} (h : Behind P next) (pk : UInt64) :
    Behind (fun k => k = pk ∨ P k) (advance next pk) := by
  rw [MultiIndex.advance]
  by_cases hle : next ≤ pk
  · rw [if_pos hle]
    by_cases hfull : noAvailablePrimaryKey ≤ pk
    · exact .inr (.inl (if_pos hfull))
    · rw [if_neg hfull]
      refine .inr (.inr fun k hk => ?_)
      rcases hk with rfl | hk
      · exact lt_next hfull
      · rcases h with rfl | rfl | h
        · exact absurd (le_trans (by decide) hle) hfull
        · exact absurd hle hfull
        · exact lt_of_lt_of_le (h k hk) (hle.trans (lt_next hfull).le)
  · rw [if_neg hle]
    refine h.imp_right fun h => h.imp_right fun h k hk => ?_
    rcases hk with rfl | hk
    · exact not_le.mp hle
    · exact h k hk

/-- A next key that is no reserved one is behind all keys. -/
theorem Behind.lt {P : UInt64 → Prop} {next : UInt64} (h : Behind P next)
    (hlt : next < noAvailablePrimaryKey) {pk : UInt64} (hpk : P pk) : pk < next := by
  rcases h with rfl | rfl | h
  · exact absurd hlt (by decide)
  · exact absurd hlt (lt_irrefl _)
  · exact h pk hpk

theorem Represents.behind (h : Represents m a) :
    Behind (fun pk => ∃ row, a.table.find pk = some row) m.nextPrimaryKey :=
  h.nextKey.imp_right fun h' => h'.imp_right fun h' pk ⟨row, hrow⟩ => h' pk row hrow

theorem Represents.withNext (h : Represents m a) {next : UInt64}
    (hnext : Behind (fun pk => ∃ row, a.table.find pk = some row) next) :
    Represents { m with nextPrimaryKey := next } a where
  primary := h.primary
  primaryValid := h.primaryValid
  indices := h.indices
  indicesValid := h.indicesValid
  items i hi := ⟨(h.items i hi).row, (h.items i hi).itr, (h.items i hi).iters⟩
  addresses := h.addresses
  keys := h.keys
  fresh := h.fresh
  nextKey := hnext.imp_right fun h' => h'.imp_right fun h' pk row hrow => h' pk ⟨row, hrow⟩

theorem grown_withNext {next : UInt64} (h : Grown d m m') :
    Grown d m { m' with nextPrimaryKey := next } :=
  ⟨h.same, h.kept, h.old, h.next, h.iterators⟩

/-- An instance that has not needed the next key yet finds it behind the last
row; in any case it is asserted to be no reserved one. -/
theorem Represents.availablePrimaryKey (h : Represents m a) :
    ∃ m', Represents m' a ∧ Grown d m m' ∧
      (m.nextPrimaryKey = unsetNextPrimaryKey → m'.nextPrimaryKey = a.nextKey) ∧
      availablePrimaryKey d m = (do
        eosioAssert .multiIndex (m'.nextPrimaryKey < noAvailablePrimaryKey)
          "next primary key in table is at autoincrement limit"
        pure (m'.nextPrimaryKey, m')) := by
  by_cases hunset : m.nextPrimaryKey = unsetNextPrimaryKey
  · obtain ⟨b, hb, hlands⟩ := h.lowerBound 0
    have hall : (fun k : UInt64 => decide (0 ≤ k)) = fun _ => true :=
      funext fun k => decide_eq_true (UInt64.zero_le ..)
    rw [hall] at hlands
    have hlast := hlands.represents.prev_end
    cases hrows : a.table.first fun _ => true with
    | none =>
        rw [hrows] at hlands
        have hkey : a.nextKey = 0 := by
          have hnone : a.table.last (fun _ => true) = none := by
            have hempty := List.find?_eq_none.mp hrows
            refine List.find?_eq_none.mpr fun q hq => ?_
            exact absurd rfl (hempty q (List.mem_reverse.mp hq))
          rw [Rows.nextKey, hnone]
        refine ⟨{ b.2 with nextPrimaryKey := 0 },
          hlands.represents.withNext (hkey ▸ behind_nextKey a), grown_withNext hlands.grown,
          fun _ => hkey.symm, ?_⟩
        rw [MultiIndex.availablePrimaryKey, if_pos hunset, begin_, hb, Rollback.ok_bind, hlands.end_]
        rfl
    | some p =>
        rw [hrows] at hlands
        obtain ⟨q, hq⟩ : ∃ q, a.table.last (fun _ => true) = some q := by
          refine Option.ne_none_iff_exists'.mp fun hnone => ?_
          have hrow := find_of_first hrows
          rw [last_eq_none hnone] at hrow
          cases hrow
        obtain ⟨i, hi, haddress, -, -⟩ := hlands.object
        rw [hq] at hlast
        obtain ⟨last, hprev, hlands'⟩ := hlast.complete rfl
        obtain ⟨j, hj, haddress', hobject, hkey⟩ := hlands'.object
        have hnext : a.nextKey = if noAvailablePrimaryKey ≤ d.primaryKey j.value
            then noAvailablePrimaryKey else d.primaryKey j.value + 1 := by
          rw [Rows.nextKey, hq, hkey]
        refine ⟨{ last.2 with nextPrimaryKey := a.nextKey },
          hlands'.represents.withNext (behind_nextKey a),
          grown_withNext (hlands.grown.trans hlands'.grown), fun _ => rfl, ?_⟩
        rw [MultiIndex.availablePrimaryKey, if_pos hunset, begin_, hb, Rollback.ok_bind, haddress]
        simp only [hprev, Rollback.ok_bind, haddress', getRow, hobject, hnext]
        rfl
  · refine ⟨m, h, Grown.refl m, fun h' => absurd h' hunset, ?_⟩
    rw [MultiIndex.availablePrimaryKey, if_neg hunset]
    rfl

/-- A key that is returned is behind every key of the map. -/
theorem Represents.availablePrimaryKey_sound (h : Represents m a) {r : UInt64 × MultiIndex σ T}
    (hr : MultiIndex.availablePrimaryKey d m = .ok r) :
    Represents r.2 a ∧ Grown d m r.2 ∧ ∀ pk row, a.table.find pk = some row → pk < r.1 := by
  obtain ⟨m', hm', hgrown, -, heq⟩ := h.availablePrimaryKey
  rw [heq, Rollback.bind_eq_ok] at hr
  obtain ⟨_, hlt, hr⟩ := hr
  rw [eosioAssert_eq_ok] at hlt
  cases hr
  exact ⟨hm', hgrown, fun pk row hrow => hm'.behind.lt hlt ⟨row, hrow⟩⟩

/-! ### A new object -/

/-- An object of another row stays as it is when a row is put. -/
theorem ItemOk.put (h : ItemOk d m a i) (hne : d.primaryKey i.value ≠ d.primaryKey obj)
    (hprimary : m.primary.Keeps m'.primary) (hindices : ∀ k, (m.indices k).Keeps (m'.indices k)) :
    ItemOk d m' (a.put obj) i where
  row := by
    show (a.table.set (d.primaryKey obj) obj).find (d.primaryKey i.value) = _
    rw [find_set_of_ne _ hne, h.row]
  itr := hprimary _ _ h.itr
  iters k := (h.iters k).imp_right (hindices k _ _)

theorem Rows.find_put (a : Rows d) (pk : UInt64) :
    (∃ row, (a.put obj).table.find pk = some row) ↔
      pk = d.primaryKey obj ∨ ∃ row, a.table.find pk = some row := by
  show (∃ row, (a.table.set (d.primaryKey obj) obj).find pk = some row) ↔ _
  rw [find_set]
  by_cases hpk : pk = d.primaryKey obj
  · rw [if_pos hpk]
    exact ⟨fun _ => .inl hpk, fun _ => ⟨obj, rfl⟩⟩
  · rw [if_neg hpk, or_iff_right hpk]

theorem Represents.behind_put (h : Represents m a) (obj : T) :
    Behind (fun pk => ∃ row, (a.put obj).table.find pk = some row)
      (advance m.nextPrimaryKey (d.primaryKey obj)) :=
  (h.behind.advance (d.primaryKey obj)).imp_right fun h' => h'.imp_right fun h' pk hpk =>
    h' pk ((Rows.find_put a pk).mp hpk)

theorem Represents.emplace {m₁ : MultiIndex σ T} (h₁ : Represents m₁ a)
    (constructor : MultiIndex σ T → Result (T × MultiIndex σ T)) (hown : m.code = m.receiver)
    (hconstructor : constructor m = .ok (obj, m₁)) :
    Rollback.Agree (fun r pk => Lands m₁ (a.put obj) r (some pk)) (MultiIndex.emplace d m constructor)
      (if a.table.find (d.primaryKey obj) = none then some (d.primaryKey obj) else none) := by
  by_cases hnew : a.table.find (d.primaryKey obj) = none
  · obtain ⟨stored, hstored, hrows, hvalid, hkeeps, hitr⟩ := h₁.primaryValid.dbStore
      (by rw [h₁.primary_find, hnew]; rfl) (d.serial.encode obj)
    have hidx : ∀ k, ∃ f, (m₁.indices k).dbStore (d.primaryKey obj) (d.secondary k obj) = .ok f ∧
        f.table.rows = (m₁.indices k).rows.set (d.primaryKey obj) (d.secondary k obj) ∧
        f.table.Valid ∧ (m₁.indices k).Keeps f.table ∧
        f.table.primaryAt f.itr = some (d.primaryKey obj) := fun k =>
      (h₁.indicesValid k).dbStore (by rw [h₁.index_find, hnew]; rfl) _
    choose idx hidx using hidx
    have hall := Rollback.forEach_eq_ok.mpr fun k => (hidx k).1
    have hne : ∀ j ∈ m₁.items, d.primaryKey j.value ≠ d.primaryKey obj := fun j hj heq => by
      have hrow := (h₁.items j hj).row
      rw [heq, hnew] at hrow
      cases hrow
    let m₂ : MultiIndex σ T := { m₁ with
      primary := stored.table
      nextPrimaryKey := MultiIndex.advance m₁.nextPrimaryKey (d.primaryKey obj)
      indices := fun k => (idx k).table }
    have h₂ : Represents m₂ (a.put obj) :=
      { primary := by
          show stored.table.rows = (a.table.set _ _).mapRows _
          rw [hrows, h₁.primary, mapRows_set]
        primaryValid := hvalid
        indices := fun k => by
          show (idx k).table.rows = (a.table.set _ _).mapRows _
          rw [(hidx k).2.1, h₁.indices, mapRows_set]
        indicesValid := fun k => (hidx k).2.2.1
        items := fun j hj => (h₁.items j hj).put (hne j hj) hkeeps fun k => (hidx k).2.2.2.1
        addresses := h₁.addresses
        keys := h₁.keys
        fresh := h₁.fresh
        nextKey := (h₁.behind_put obj).imp_right fun h' => h'.imp_right fun h' pk row hrow =>
          h' pk ⟨row, hrow⟩ }
    have hok : ItemOk d m₂ (a.put obj) ⟨m₂.nextAddress, obj, stored.itr, fun k => (idx k).itr⟩ :=
      ⟨find_set_self _ _ _, hitr, fun k => .inr (hidx k).2.2.2.2⟩
    have hgrown : Grown d m₁ m₂ :=
      ⟨⟨rfl, rfl⟩, fun j hj => ⟨j, hj, rfl, rfl⟩, fun j hj _ => ⟨j, hj, rfl⟩, le_refl _,
        fun k => (hidx k).2.2.2.1⟩
    rw [if_pos hnew, MultiIndex.emplace, eosioAssert, if_pos hown]
    simp only [Rollback.ok_bind, hconstructor, Serial.pack_eq, hstored, hall]
    exact .ok ⟨h₂.allocate hok hne, hgrown.trans (grown_allocate m₂ _ _ _), _,
      List.mem_append_right _ (List.mem_singleton.mpr rfl), rfl, rfl⟩
  · obtain ⟨row, hrow⟩ := Option.ne_none_iff_exists'.mp hnew
    have hfail : m₁.primary.dbStore (d.primaryKey obj) (d.serial.encode obj) =
        .error (.assertion .database "row already exists") := by
      rw [DbTable.dbStore, h₁.primary_find, hrow]
      rfl
    rw [if_neg hnew, MultiIndex.emplace, eosioAssert, if_pos hown]
    simp only [Rollback.ok_bind, hconstructor, Serial.pack_eq, hfail]
    exact .fail _

/-! ### A modified object -/

/-- A negative iterator is one that is not filled in. -/
theorem Represents.fill_neg (h : Represents m a) (hi : i ∈ m.items) (k : Fin n) :
    Index m k (MultiIndex.fill d m k i (i.iters k < 0)).2 ∧
      (MultiIndex.fill d m k i (i.iters k < 0)).2.primaryAt
        (MultiIndex.fill d m k i (i.iters k < 0)).1 = some (d.primaryKey i.value) := by
  have hmissing : decide (i.iters k < 0) = false → i.iters k ≠ -1 := fun hpos heq => by
    rw [heq] at hpos
    exact absurd hpos (by decide)
  exact h.fill hi k hmissing

/-- An index's part in `modify`: the entry gets the new secondary key. -/
theorem Represents.reindex [∀ k, LinearOrder (σ k)] (h : Represents m a) (hi : i ∈ m.items)
    (hkey : d.primaryKey obj = d.primaryKey i.value) (k : Fin n) :
    ∃ r : ℤ × DbTable (σ k),
      (if d.secondary k i.value ≠ d.secondary k obj then do
        let r := MultiIndex.fill d m k i (i.iters k < 0)
        let table ← r.2.dbUpdate r.1 (d.secondary k obj)
        pure (r.1, table)
      else pure (i.iters k, m.indices k) : Result (ℤ × DbTable (σ k))) = .ok r ∧
      r.2.rows = (a.put obj).table.mapRows (d.secondary k) ∧ r.2.Valid ∧
      (m.indices k).Keeps r.2 ∧ (r.1 = -1 ∨ r.2.primaryAt r.1 = some (d.primaryKey obj)) := by
  have hput : (a.put obj).table.mapRows (d.secondary k) =
      (m.indices k).rows.set (d.primaryKey obj) (d.secondary k obj) := by
    rw [h.indices]
    exact mapRows_set ..
  have hrow : (m.indices k).rows.find (d.primaryKey obj) = some (d.secondary k i.value) := by
    rw [h.index_find, hkey, (h.items i hi).row, Option.map_some]
  by_cases hsame : d.secondary k i.value ≠ d.secondary k obj
  · obtain ⟨hindex, hitr⟩ := h.fill_neg hi k
    generalize MultiIndex.fill d m k i (decide (i.iters k < 0)) = r at hindex hitr ⊢
    rw [← hkey] at hitr
    have hat : r.2.rowAt r.1 = .ok (d.primaryKey obj, d.secondary k i.value) :=
      DbTable.rowAt_eq_ok.mpr ⟨hitr, hindex.rows ▸ hrow⟩
    rw [if_pos hsame]
    refine ⟨(r.1, { r.2 with rows := r.2.rows.set (d.primaryKey obj) (d.secondary k obj) }), ?_,
      ?_, hindex.valid.set _ _, hindex.keeps, .inr hitr⟩
    · simp only [DbTable.dbUpdate, hat, Rollback.ok_bind, pure_bind]
      rfl
    · show r.2.rows.set _ _ = _
      rw [hindex.rows, hput]
  · rw [if_neg hsame]
    refine ⟨_, rfl, ?_, h.indicesValid k, .refl _, hkey ▸ (h.items i hi).iters k⟩
    rw [hput, ← not_not.mp hsame, set_eq_self hrow]

theorem Represents.modify [∀ k, LinearOrder (σ k)] (h : Represents m a) (hi : i ∈ m.items)
    (hown : m.code = m.receiver) {updater : T → T}
    (hkey : d.primaryKey (updater i.value) = d.primaryKey i.value) :
    ∃ m', MultiIndex.modify d m (some i.address) updater = .ok m' ∧
      Represents m' (a.put (updater i.value)) ∧ Grown d m m' := by
  generalize hobj : updater i.value = obj at hkey
  have hidx := h.reindex hi hkey
  choose idx hidx using hidx
  have hall := Rollback.forEach_eq_ok.mpr fun k => (hidx k).1
  have hupdate : m.primary.dbUpdate i.primaryItr (d.serial.encode obj) =
      .ok { m.primary with rows := m.primary.rows.set (d.primaryKey i.value) (d.serial.encode obj) } :=
    DbTable.dbUpdate_eq_ok.mpr ⟨_, h.rowAt hi, rfl⟩
  let i' : Item n T := { i with value := obj, iters := fun k => (idx k).1 }
  let m₂ : MultiIndex σ T := { m with
    primary := { m.primary with
      rows := m.primary.rows.set (d.primaryKey i.value) (d.serial.encode obj) }
    nextPrimaryKey := MultiIndex.advance m.nextPrimaryKey (d.primaryKey i.value)
    indices := fun k => (idx k).2 }
  have hgrown : Grown d m (m.update i') := h.grown_update hi rfl hkey
  have hsame := h.update_addresses hi (show i'.address = i.address from rfl) hkey
  have hbehind := h.behind_put obj
  rw [hkey] at hbehind
  refine ⟨m₂.update i', ?_, ?_, ?_⟩
  · rw [MultiIndex.modify]
    simp only [getRow, Rollback.ok_bind, h.object_eq hi, eosioAssert, if_pos hown, hobj,
      if_true, Serial.pack_eq, hupdate, hall, hkey]
    rfl
  · exact {
      primary := by
        show m.primary.rows.set _ _ = (a.table.set _ _).mapRows _
        rw [h.primary, mapRows_set, hkey]
      primaryValid := h.primaryValid.set _ _
      indices := fun k => (hidx k).2.1
      indicesValid := fun k => (hidx k).2.2.1
      items := fun j hj => by
        obtain ⟨i₀, hi₀, rfl⟩ := mem_update.mp hj
        split
        · exact ⟨find_set_self _ _ _, hkey ▸ (h.items i hi).itr, fun k => (hidx k).2.2.2.2⟩
        · rename_i hother
          have hne : d.primaryKey i₀.value ≠ d.primaryKey obj := fun heq => by
            have hi₀' : i₀ = i := h.eq_of_key hi₀ hi (heq.trans hkey)
            exact hother (show i₀.address = i.address by rw [hi₀'])
          exact (h.items i₀ hi₀).put hne (fun _ _ h => h) fun k => (hidx k).2.2.2.1
      addresses := hsame.1 ▸ h.addresses
      keys := hsame.2 ▸ h.keys
      fresh := fun j hj => by
        obtain ⟨i₀, hi₀, rfl⟩ := mem_update.mp hj
        split
        · exact h.fresh i hi
        · exact h.fresh i₀ hi₀
      nextKey := hbehind.imp_right fun h' => h'.imp_right fun h' pk row hrow =>
        h' pk ⟨row, hrow⟩ }
  · exact ⟨⟨rfl, rfl⟩, hgrown.kept, hgrown.old, le_refl _, fun k => (hidx k).2.2.2.1⟩

/-! ### An object that goes -/

/-- An index's part in `erase`: the entry goes, the others keep their iterators. -/
theorem Represents.unindex [∀ k, LinearOrder (σ k)] (h : Represents m a) (hi : i ∈ m.items)
    (k : Fin n) :
    ∃ t : DbTable (σ k),
      (do
        let r := MultiIndex.fill d m k i (i.iters k < 0)
        if 0 ≤ r.1 then r.2.dbRemove r.1 else pure r.2) = .ok t ∧
      t.rows = (a.remove (d.primaryKey i.value)).table.mapRows (d.secondary k) ∧ t.Valid ∧
      ∀ itr pk, (m.indices k).primaryAt itr = some pk → pk ≠ d.primaryKey i.value →
        t.primaryAt itr = some pk := by
  obtain ⟨hindex, hitr⟩ := h.fill_neg hi k
  generalize MultiIndex.fill d m k i (decide (i.iters k < 0)) = r at hindex hitr ⊢
  have hrow : r.2.rows.find (d.primaryKey i.value) = some (d.secondary k i.value) := by
    rw [hindex.rows, h.index_find, (h.items i hi).row, Option.map_some]
  have hat : r.2.rowAt r.1 = .ok (d.primaryKey i.value, d.secondary k i.value) :=
    DbTable.rowAt_eq_ok.mpr ⟨hitr, hrow⟩
  refine ⟨⟨r.2.rows.erase (d.primaryKey i.value), r.2.iterators.set r.1.toNat none⟩, ?_, ?_,
    hindex.valid.remove hitr, fun itr pk hpk hne => ?_⟩
  · simp only [if_pos (DbTable.nonneg_of_primaryAt hitr), DbTable.dbRemove, hat, Rollback.ok_bind]
    rfl
  · show r.2.rows.erase _ = (a.table.erase _).mapRows _
    rw [hindex.rows, h.indices, mapRows_erase]
  · exact DbTable.primaryAt_remove hitr _ (hindex.keeps _ _ hpk) hne

/-- What an erased object leaves: all others, at their addresses. -/
structure Without (m m' : MultiIndex σ T) (address : ℕ) : Prop where
  same : m'.code = m.code ∧ m'.receiver = m.receiver
  items : m'.items = m.items.filter fun j => j.address ≠ address
  next : m'.nextAddress = m.nextAddress

theorem Represents.eraseObject [∀ k, LinearOrder (σ k)] (h : Represents m a) (hi : i ∈ m.items)
    (hown : m.code = m.receiver) :
    ∃ m', MultiIndex.eraseObject d m i.address = .ok m' ∧
      Represents m' (a.remove (d.primaryKey i.value)) ∧ Without m m' i.address := by
  have hidx := h.unindex hi
  choose idx hidx using hidx
  have hall := Rollback.forEach_eq_ok.mpr fun k => (hidx k).1
  have hremove := DbTable.dbRemove_eq_ok.mpr ⟨_, h.rowAt hi, rfl⟩
  have hother : ∀ j ∈ m.items.filter fun j => j.address ≠ i.address,
      j ∈ m.items ∧ d.primaryKey j.value ≠ d.primaryKey i.value := fun j hj => by
    obtain ⟨hj, hne⟩ := List.mem_filter.mp hj
    refine ⟨hj, fun heq => of_decide_eq_true hne ?_⟩
    exact congrArg Item.address (h.eq_of_key hj hi heq)
  have hsub : (m.items.filter fun j => j.address ≠ i.address).Sublist m.items :=
    List.filter_sublist
  let m₂ : MultiIndex σ T := { m with
    primary := ⟨m.primary.rows.erase (d.primaryKey i.value),
      m.primary.iterators.set i.primaryItr.toNat none⟩
    indices := idx
    items := m.items.filter fun j => j.address ≠ i.address }
  refine ⟨m₂, ?_, ?_, ⟨rfl, rfl⟩, rfl, rfl⟩
  · rw [MultiIndex.eraseObject]
    simp only [h.object_eq hi, Rollback.ok_bind, eosioAssert, if_pos hown, h.find_key hi, getRow,
      hremove, hall]
    rfl
  · exact {
      primary := by
        show m.primary.rows.erase _ = (a.table.erase _).mapRows _
        rw [h.primary, mapRows_erase]
      primaryValid := h.primaryValid.remove (h.items i hi).itr
      indices := fun k => (hidx k).2.1
      indicesValid := fun k => (hidx k).2.2.1
      items := fun j hj => by
        obtain ⟨hj, hne⟩ := hother j hj
        refine ⟨?_, DbTable.primaryAt_remove (h.items i hi).itr _ (h.items j hj).itr hne,
          fun k => ((h.items j hj).iters k).imp_right fun hitr => (hidx k).2.2.2 _ _ hitr hne⟩
        show (a.table.erase _).find _ = _
        rw [find_erase_of_ne _ hne, (h.items j hj).row]
      addresses := h.addresses.sublist (hsub.map _)
      keys := h.keys.sublist (hsub.map _)
      fresh := fun j hj => h.fresh j (hother j hj).1
      nextKey := h.nextKey.imp_right fun h' => h'.imp_right fun h' pk row hrow => by
        have hfind : (a.table.erase (d.primaryKey i.value)).find pk = some row := hrow
        rw [find_erase] at hfind
        split at hfind
        · cases hfind
        · exact h' pk row hfind }

end MultiIndex

end Xidata.Eosiolib
