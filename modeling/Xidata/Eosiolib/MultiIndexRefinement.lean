import Xidata.Eosiolib.MultiIndexSession
import Xidata.Eosiolib.MultiIndexWrites

/-!
A `multi_index` refines an ordered map.  Every command keeps an instance and a
map in step: a cursor of the one points to the object of the row at which the
cursor of the other stands.
-/

namespace Xidata.Eosiolib

open OrderedTable Rollback

variable {n : ℕ} {σ : Fin n → Type} {T : Type} {d : Schema σ T}

/-- An iterator points to where a cursor stands.  The address of a row that is
gone is not used again. -/
inductive Points (d : Schema σ T) (m : MultiIndex σ T) : Iterator → Cursor → Prop
  | end_ : Points d m none .end_
  | on {i : Item n T} (h : i ∈ m.items) : Points d m (some i.address) (.on (d.primaryKey i.value))
  | deleted {address : ℕ} (hlt : address < m.nextAddress) (h : ∀ i ∈ m.items, i.address ≠ address) :
      Points d m (some address) .deleted

structure Matches (s : Session σ T) (v : View d) : Prop where
  represents : s.index.Represents v.rows
  cursors : ∀ r, Points d s.index (s.cursors r) (v.cursors r)
  writable : v.writable ↔ s.index.code = s.index.receiver

/-- The same output, and states that match. -/
def Same (r : Out T × Session σ T) (r' : Out T × View d) : Prop := r.1 = r'.1 ∧ Matches r.2 r'.2

variable {s : Session σ T} {v : View d} {m m' : MultiIndex σ T}

/-! ### Cursors -/

theorem Points.grown {it : Iterator} {c : Cursor} (h : Points d m it c)
    (hgrown : m.Grown d m') : Points d m' it c := by
  cases h with
  | end_ => exact .end_
  | on hi =>
      obtain ⟨i', hi', haddress, hkey⟩ := hgrown.kept _ hi
      rw [← haddress, ← hkey]
      exact .on hi'
  | deleted hlt hnone =>
      refine .deleted (lt_of_lt_of_le hlt hgrown.next) fun i' hi' heq => ?_
      obtain ⟨i, hi, haddress⟩ := hgrown.old i' hi' (heq ▸ hlt)
      exact hnone i hi (haddress.trans heq)

theorem points_of_isAt {it : Iterator} {o : Option UInt64} (h : MultiIndex.IsAt d m it o) :
    Points d m it (o.elim .end_ .on) := by
  cases it with
  | none =>
      cases o with
      | none => exact .end_
      | some pk => exact h.elim
  | some address =>
      cases o with
      | none => exact h.elim
      | some pk =>
          obtain ⟨i, hi, rfl, rfl⟩ := h
          exact .on hi

theorem Matches.grown (h : Matches s v) {a : Rows d} (hm : m.Represents a)
    (hgrown : s.index.Grown d m) : Matches { s with index := m } { v with rows := a } where
  represents := hm
  cursors r := (h.cursors r).grown hgrown
  writable := by
    show v.writable ↔ m.code = m.receiver
    rw [hgrown.same.1, hgrown.same.2, h.writable]

/-- A read that lands at a key gives its cursor the row of the key. -/
theorem Matches.land (h : Matches s v) {a : Rows d} {r : Iterator × MultiIndex σ T}
    {o : Option UInt64} (hlands : s.index.Lands a r o) (to_ : ℕ) :
    ∃ r', s.land to_ r = .ok r' ∧ Same r' (({ v with rows := a } : View d).land to_ o) := by
  obtain ⟨it, m⟩ := r
  have hmatches := h.grown hlands.represents hlands.grown
  have hcursors : Matches ⟨m, Function.update s.cursors to_ it⟩
      (({ v with rows := a } : View d).land to_ o).2 :=
    { represents := hlands.represents
      cursors := fun r' => by
        show Points d m (Function.update s.cursors to_ it r')
          (Function.update v.cursors to_ (o.elim .end_ .on) r')
        by_cases hr : r' = to_
        · subst hr
          rw [Function.update_self, Function.update_self]
          exact points_of_isAt hlands.isAt
        · rw [Function.update_of_ne hr, Function.update_of_ne hr]
          exact hmatches.cursors r'
      writable := hmatches.writable }
  cases o with
  | none =>
      obtain rfl : it = none := hlands.end_
      exact ⟨_, rfl, rfl, hcursors⟩
  | some pk =>
      obtain ⟨i, hi, hr, hobject, hkey⟩ := hlands.object
      have hrow := (hlands.represents.items i hi).row
      rw [hkey] at hrow
      obtain rfl : it = some i.address := hr
      simp only [Session.land, hobject, Rollback.ok_bind]
      refine ⟨_, rfl, ?_, hcursors⟩
      show Out.row (some i.value) = .row (a.table.find pk)
      rw [hrow]

/-- The same for a read that succeeds when the map has a row. -/
theorem Matches.land_agree (h : Matches s v) {x : Result (Iterator × MultiIndex σ T)}
    {o : Option UInt64} (hx : Agree (fun r pk => s.index.Lands v.rows r (some pk)) x o) (to_ : ℕ) :
    Agree Same (do let r ← x; s.land to_ r) (o.map fun pk => v.land to_ (some pk)) := by
  cases hx with
  | ok hlands =>
      obtain ⟨r', hr', hsame⟩ := h.land hlands to_
      rw [Rollback.ok_bind, hr']
      exact .ok hsame
  | fail e => exact .fail e

theorem Matches.land_ok (h : Matches s v) {x : Result (Iterator × MultiIndex σ T)}
    {o : Option UInt64} (hx : ∃ r, x = .ok r ∧ s.index.Lands v.rows r o) (to_ : ℕ) :
    Agree Same (do let r ← x; s.land to_ r) (some (v.land to_ o)) := by
  obtain ⟨r, rfl, hlands⟩ := hx
  obtain ⟨r', hr', hsame⟩ := h.land hlands to_
  rw [Rollback.ok_bind, hr']
  exact .ok hsame

/-- What a cursor points to: an object with its row, the end, or nothing. -/
theorem Matches.cursor (h : Matches s v) (on : ℕ) :
    (∃ i ∈ s.index.items, s.cursors on = some i.address ∧ v.cursors on = .on (d.primaryKey i.value) ∧
      v.row on = some i.value) ∨
    (s.cursors on = none ∧ v.cursors on = .end_ ∧ v.row on = none) ∨
    (∃ address e, s.cursors on = some address ∧ v.cursors on = .deleted ∧ v.row on = none ∧
      s.index.object address = .error e) := by
  have hpoints := h.cursors on
  rw [View.row]
  generalize s.cursors on = it at hpoints ⊢
  generalize v.cursors on = c at hpoints ⊢
  cases hpoints with
  | end_ => exact .inr (.inl ⟨rfl, rfl, rfl⟩)
  | on hi => exact .inl ⟨_, hi, rfl, rfl, (h.represents.items _ hi).row⟩
  | deleted hlt hnone =>
      refine .inr (.inr ⟨_, _, rfl, rfl, rfl, getRow_eq_error.mpr ⟨?_, rfl⟩⟩)
      exact List.find?_eq_none.mpr fun i hi => by simpa using hnone i hi

/-- A command that starts from an object: it succeeds from the objects of rows only. -/
theorem Matches.on (h : Matches s v) (on : ℕ) {R : Out T × Session σ T → Out T × View d → Prop}
    {x : Iterator → Result (Out T × Session σ T)} {y : T → Option (Out T × View d)}
    (hend : ∃ e, x none = .error e)
    (hdeleted : ∀ address e, s.index.object address = .error e → ∃ e', x (some address) = .error e')
    (hrow : ∀ i ∈ s.index.items, Agree R (x (some i.address)) (y i.value)) :
    Agree R (x (s.cursors on)) (v.row on >>= y) := by
  rcases h.cursor on with ⟨i, hi, hs, -, hv⟩ | ⟨hs, -, hv⟩ | ⟨address, e, hs, -, hv, hobject⟩
  · rw [hs, hv]
    exact hrow i hi
  · obtain ⟨e, he⟩ := hend
    rw [hs, hv, he]
    exact .fail e
  · obtain ⟨e', he'⟩ := hdeleted address e hobject
    rw [hs, hv, he']
    exact .fail e'

/-! ### Writes -/

theorem error_of_not {site : Site} {test : Prop} [Decidable test] {msg : String} (h : ¬ test) :
    eosioAssert site test msg = .error (.assertion site msg) := if_neg h

theorem Matches.emplace (h : Matches s v) (to_ : ℕ) {row : T}
    {constructor : MultiIndex σ T → Result (T × MultiIndex σ T)}
    (hconstructor : constructor s.index = .ok (row, m)) (hm : m.Represents v.rows)
    (hgrown : s.index.Grown d m) :
    Agree Same (do let r ← MultiIndex.emplace d s.index constructor; s.land to_ r)
      (v.emplace to_ row) := by
  rw [View.emplace]
  by_cases hown : s.index.code = s.index.receiver
  · have hagree := hm.emplace constructor hown hconstructor
    by_cases hnew : v.rows.table.find (d.primaryKey row) = none
    · rw [if_pos hnew] at hagree
      obtain ⟨r, hr, hlands⟩ := hagree.complete rfl
      obtain ⟨r', hr', hsame⟩ := h.land (hlands.of_grown hgrown) to_
      rw [if_pos ⟨h.writable.mpr hown, hnew⟩, hr, Rollback.ok_bind, hr']
      exact .ok hsame
    · rw [if_neg hnew] at hagree
      rw [if_neg fun hboth => hnew hboth.2]
      generalize MultiIndex.emplace d s.index constructor = x at hagree ⊢
      cases hagree with
      | fail e => exact .fail e
  · rw [if_neg fun hboth => hown (h.writable.mp hboth.1), MultiIndex.emplace, error_of_not hown]
    exact .fail _

/-- An object that is emplaced has what its constructor gives it. -/
theorem Matches.emplace_sound (h : Matches s v) (to_ : ℕ)
    {constructor : MultiIndex σ T → Result (T × MultiIndex σ T)} {r : Out T × Session σ T}
    (hr : (do let r ← MultiIndex.emplace d s.index constructor; s.land to_ r) = .ok r)
    {P : T → Prop} (hconstructor : ∀ c, constructor s.index = .ok c →
      c.2.Represents v.rows ∧ s.index.Grown d c.2 ∧ P c.1) :
    ∃ r', ∃ obj, v.emplace to_ obj = some r' ∧ P obj ∧ Same r r' := by
  obtain ⟨it, hemplace, -⟩ := bind_eq_ok.mp hr
  rw [MultiIndex.emplace, bind_eq_ok] at hemplace
  obtain ⟨_, -, hemplace⟩ := hemplace
  obtain ⟨c, hc, -⟩ := bind_eq_ok.mp hemplace
  obtain ⟨hm, hgrown, hobj⟩ := hconstructor c hc
  obtain ⟨r', hr', hsame⟩ := (h.emplace to_ hc hm hgrown).sound hr
  exact ⟨r', c.1, hr', hobj, hsame⟩

/-- The cursors of an erased row stand nowhere, the others where they stood. -/
theorem Matches.without (h : Matches s v) {i : Item n T} (hi : i ∈ s.index.items)
    (hrep : m.Represents (v.rows.remove (d.primaryKey i.value)))
    (hwithout : s.index.Without m i.address) :
    Matches { s with index := m } (v.remove (d.primaryKey i.value)) where
  represents := hrep
  cursors r := by
    show Points d m (s.cursors r)
      (if v.cursors r = .on (d.primaryKey i.value) then .deleted else v.cursors r)
    have hpoints := h.cursors r
    generalize s.cursors r = it at hpoints ⊢
    generalize v.cursors r = c at hpoints ⊢
    cases hpoints with
    | end_ => exact .end_
    | on hj =>
        rename_i j
        by_cases hkey : d.primaryKey j.value = d.primaryKey i.value
        · obtain rfl := h.represents.eq_of_key hj hi hkey
          rw [if_pos rfl]
          refine .deleted (hwithout.next ▸ h.represents.fresh j hj) fun j' hj' => ?_
          rw [hwithout.items] at hj'
          exact of_decide_eq_true (List.mem_filter.mp hj').2
        · rw [if_neg fun hon => hkey (Cursor.on.inj hon)]
          refine .on (hwithout.items ▸ List.mem_filter.mpr ⟨hj, decide_eq_true fun haddress => ?_⟩)
          exact hkey (by rw [h.represents.eq_of_address hj hi haddress])
    | deleted hlt hnone =>
        rw [if_neg fun hon => by cases hon]
        refine .deleted (hwithout.next ▸ hlt) fun j hj => hnone j ?_
        rw [hwithout.items] at hj
        exact (List.mem_filter.mp hj).1
  writable := by
    show v.writable ↔ m.code = m.receiver
    rw [hwithout.same.1, hwithout.same.2, h.writable]

theorem eraseObject_error {address : ℕ} {e : Failure} (hobject : m.object address = .error e) :
    MultiIndex.eraseObject d m address = .error e := by
  rw [MultiIndex.eraseObject, hobject]
  rfl

theorem Matches.eraseObject_foreign (h : Matches s v) {i : Item n T} (hi : i ∈ s.index.items)
    (hown : s.index.code ≠ s.index.receiver) :
    ∃ e, MultiIndex.eraseObject d s.index i.address = .error e := by
  rw [MultiIndex.eraseObject, h.represents.object_eq hi, Rollback.ok_bind, error_of_not hown]
  exact ⟨_, rfl⟩

/-- An erased row behind which there is another, or the end. -/
theorem lands_without {a : Rows d} {i : Item n T} (hm : m.Represents a) (hi : i ∈ m.items)
    {it : Iterator} {o : Option UInt64} (hat : m.IsAt d it o)
    (hne : ∀ pk, o = some pk → pk ≠ d.primaryKey i.value)
    (hrep : m'.Represents (a.remove (d.primaryKey i.value))) (hwithout : m.Without m' i.address) :
    m'.Lands (a.remove (d.primaryKey i.value)) (it, m') o := by
  refine ⟨hrep, .refl m', ?_⟩
  cases it with
  | none =>
      cases o with
      | none => trivial
      | some pk => exact hat.elim
  | some address =>
      cases o with
      | none => exact hat
      | some pk =>
          obtain ⟨j, hj, rfl, hkey⟩ := hat
          refine ⟨j, ?_, rfl, hkey⟩
          rw [hwithout.items]
          refine List.mem_filter.mpr ⟨hj, decide_eq_true fun haddress => hne pk rfl ?_⟩
          rw [← hkey, hm.eq_of_address hj hi haddress]

/-- A step back of a cursor, from the end or from an object. -/
theorem Matches.back (h : Matches s v) (on : ℕ)
    {x : Iterator → Result (Iterator × MultiIndex σ T)} {last : Option (UInt64 × T)}
    {prev : T → Option (UInt64 × T)}
    (hdeleted : ∀ address e, s.index.object address = .error e → x (some address) = .error e)
    (hend : Agree (fun r pk => s.index.Lands v.rows r (some pk)) (x none) (last.map Prod.fst))
    (hrow : ∀ i ∈ s.index.items, Agree (fun r pk => s.index.Lands v.rows r (some pk))
      (x (some i.address)) ((prev i.value).map Prod.fst)) :
    Agree Same (do let r ← x (s.cursors on); s.land on r) (v.back on last prev) := by
  rw [View.back]
  rcases h.cursor on with ⟨i, hi, hs, hon, hv⟩ | ⟨hs, hon, hv⟩ | ⟨address, e, hs, hon, hv, hobject⟩
  · rw [hs, hon, hv]
    exact h.land_agree (hrow i hi) on
  · rw [hs, hon]
    exact h.land_agree hend on
  · rw [hs, hon, hv, hdeleted address e hobject]
    exact .fail e

theorem next_error {address : ℕ} {e : Failure} (hobject : m.object address = .error e) :
    MultiIndex.next d m (some address) = .error e := by
  rw [MultiIndex.next, hobject]
  rfl

theorem prev_error {address : ℕ} {e : Failure} (hobject : m.object address = .error e) :
    MultiIndex.prev d m (some address) = .error e := by
  rw [MultiIndex.prev, hobject]
  rfl

theorem Matches.next (h : Matches s v) (on : ℕ)
    {x : Iterator → Result (Iterator × MultiIndex σ T)} {after : T → Option (UInt64 × T)}
    (hend : ∃ e, x none = .error e)
    (hdeleted : ∀ address e, s.index.object address = .error e → x (some address) = .error e)
    (hrow : ∀ i ∈ s.index.items, ∃ r, x (some i.address) = .ok r ∧
      s.index.Lands v.rows r ((after i.value).map Prod.fst)) :
    Agree Same (do let r ← x (s.cursors on); s.land on r)
      (do let row ← v.row on; some (v.land on ((after row).map Prod.fst))) := by
  refine h.on (x := fun it => do let r ← x it; s.land on r) on ?_ (fun address e hobject => ?_)
    fun i hi => h.land_ok (hrow i hi) on
  · obtain ⟨e, he⟩ := hend
    rw [he]
    exact ⟨e, rfl⟩
  · rw [hdeleted address e hobject]
    exact ⟨e, rfl⟩

theorem ne_of_after {i : Item n T} {q : UInt64 × T} (hq : v.after i.value = some q) :
    q.1 ≠ d.primaryKey i.value := by
  have hlt : d.primaryKey i.value < q.1 := by simpa using List.find?_some hq
  exact hlt.ne'

/-- A row that a cursor is given is one of the map. -/
theorem View.live_of_land {to_ : ℕ} {o : Option UInt64} {row : T} {v' : View d}
    (h : v.land to_ o = (.row (some row), v')) : v'.rows.table.find (d.primaryKey row) = some row := by
  obtain ⟨hout, rfl⟩ := Prod.mk.inj h
  obtain ⟨pk, rfl, hrow⟩ := Option.bind_eq_some_iff.mp (Out.row.inj hout)
  rw [v.rows.keyed pk row hrow]
  exact hrow

theorem View.live_of_back {on : ℕ} {last : Option (UInt64 × T)} {prev : T → Option (UInt64 × T)}
    {row : T} {v' : View d} (h : v.back on last prev = some (.row (some row), v')) :
    v'.rows.table.find (d.primaryKey row) = some row := by
  rw [View.back] at h
  split at h
  · obtain ⟨pk, -, hland⟩ := Option.map_eq_some_iff.mp h
    exact View.live_of_land hland
  · obtain ⟨old, -, h⟩ := Option.bind_eq_some_iff.mp h
    obtain ⟨pk, -, hland⟩ := Option.map_eq_some_iff.mp h
    exact View.live_of_land hland

theorem View.live_of_emplace {to_ : ℕ} {obj row : T} {v' : View d}
    (h : v.emplace to_ obj = some (.row (some row), v')) :
    v'.rows.table.find (d.primaryKey row) = some row := by
  rw [View.emplace] at h
  split at h
  · exact View.live_of_land (Option.some.inj h)
  · cases h

theorem View.live_of_erase {on to_ : ℕ} {after : T → Option (UInt64 × T)} {row : T} {v' : View d}
    (h : v.erase on to_ after = some (.row (some row), v')) :
    v'.rows.table.find (d.primaryKey row) = some row := by
  obtain ⟨old, -, h⟩ := Option.bind_eq_some_iff.mp h
  split at h
  · exact View.live_of_land (Option.some.inj h)
  · cases h

section Commands

variable [∀ k, LinearOrder (σ k)]

theorem Matches.modify (h : Matches s v) (on : ℕ) (updater : T → T) :
    Agree Same (Session.exec d s (.modify on updater)) (v.step 0 (.modify on updater)) := by
  refine h.on (x := fun it => do
    let m ← MultiIndex.modify d s.index it updater
    pure (.done, { s with index := m })) on ⟨_, rfl⟩ (fun address e hobject => ⟨e, ?_⟩)
    fun i hi => ?_
  · simp only [MultiIndex.modify, getRow, Rollback.ok_bind, hobject]
    rfl
  · by_cases hown : s.index.code = s.index.receiver
    · by_cases hkey : d.primaryKey (updater i.value) = d.primaryKey i.value
      · obtain ⟨m', hm', hrep, hgrown⟩ := h.represents.modify hi hown hkey
        rw [if_pos ⟨h.writable.mpr hown, hkey⟩, hm', Rollback.ok_bind]
        exact .ok ⟨rfl, h.grown hrep hgrown⟩
      · rw [if_neg fun hboth => hkey hboth.2]
        simp only [MultiIndex.modify, getRow, Rollback.ok_bind, h.represents.object_eq hi, eosioAssert,
          if_pos hown, if_neg (Ne.symm hkey)]
        exact .fail _
    · rw [if_neg fun hboth => hown (h.writable.mp hboth.1)]
      simp only [MultiIndex.modify, getRow, Rollback.ok_bind, h.represents.object_eq hi, eosioAssert,
        if_neg hown]
      exact .fail _

theorem Matches.eraseObject (h : Matches s v) (on : ℕ) :
    Agree Same (Session.exec d s (.eraseObject on)) (v.step 0 (.eraseObject on)) := by
  refine h.on (x := fun it => do
    let address ← getRow .deletedObject it ""
    let m ← MultiIndex.eraseObject d s.index address
    pure (.done, { s with index := m })) on ⟨_, rfl⟩ (fun address e hobject => ⟨e, ?_⟩)
    fun i hi => ?_
  · simp only [getRow, Rollback.ok_bind, eraseObject_error hobject]
    rfl
  · rw [getRow, Rollback.ok_bind]
    by_cases hown : s.index.code = s.index.receiver
    · obtain ⟨m', hm', hrep, hwithout⟩ := h.represents.eraseObject hi hown
      rw [if_pos (h.writable.mpr hown), hm', Rollback.ok_bind]
      exact .ok ⟨rfl, h.without hi hrep hwithout⟩
    · obtain ⟨e, he⟩ := h.eraseObject_foreign hi hown
      rw [if_neg fun hwritable => hown (h.writable.mp hwritable), he]
      exact .fail e

/-- `erase` of an iterator, in the order of the keys or of an index. -/
theorem Matches.erase (h : Matches s v) (on to_ : ℕ)
    {next : Iterator → Result (Iterator × MultiIndex σ T)} {after : T → Option (UInt64 × T)}
    (hdeleted : ∀ address e, s.index.object address = .error e → next (some address) = .error e)
    (hnext : ∀ i ∈ s.index.items, ∃ r, next (some i.address) = .ok r ∧
      s.index.Lands v.rows r ((after i.value).map Prod.fst))
    (hne : ∀ i ∈ s.index.items, ∀ q, after i.value = some q → q.1 ≠ d.primaryKey i.value) :
    Agree Same (do
      let r ← (do
        let address ← getRow .multiIndex (s.cursors on) "cannot pass end iterator to erase"
        let r ← next (s.cursors on)
        let m ← MultiIndex.eraseObject d r.2 address
        pure (r.1, m) : Result (Iterator × MultiIndex σ T))
      s.land to_ r) (v.erase on to_ after) := by
  refine h.on (x := fun it => do
    let r ← (do
      let address ← getRow .multiIndex it "cannot pass end iterator to erase"
      let r ← next it
      let m ← MultiIndex.eraseObject d r.2 address
      pure (r.1, m) : Result (Iterator × MultiIndex σ T))
    s.land to_ r) on ⟨_, rfl⟩ (fun address e hobject => ⟨e, ?_⟩) fun i hi => ?_
  · simp only [getRow, Rollback.ok_bind, hdeleted address e hobject]
    rfl
  · obtain ⟨r, hr, hlands⟩ := hnext i hi
    obtain ⟨i', hi', haddress, hkey⟩ := hlands.grown.kept i hi
    have hmatches := h.grown hlands.represents hlands.grown
    rw [← haddress] at hr ⊢
    simp only [getRow, Rollback.ok_bind, hr, ← hkey]
    by_cases hown : r.2.code = r.2.receiver
    · obtain ⟨m', hm', hrep, hwithout⟩ := hlands.represents.eraseObject hi' hown
      have hlands' := lands_without hlands.represents hi' hlands.isAt (fun pk hpk => by
        obtain ⟨q, hq, rfl⟩ := Option.map_eq_some_iff.mp hpk
        exact hkey ▸ hne i hi q hq) hrep hwithout
      obtain ⟨r', hr', hsame⟩ := (hmatches.without hi' hrep hwithout).land hlands' to_
      have hland : s.land to_ (r.1, m') = .ok r' := hr'
      rw [if_pos (hmatches.writable.mpr hown), hm', Rollback.ok_bind, pure_bind, hland]
      exact .ok hsame
    · obtain ⟨e, he⟩ := hmatches.eraseObject_foreign hi' hown
      have he' : MultiIndex.eraseObject d r.2 i'.address = .error e := he
      rw [if_neg fun hwritable => hown (hmatches.writable.mp hwritable), he']
      exact .fail e

/-! ### Every command -/

theorem Matches.ne_of_afterBy (h : Matches s v) {i : Item n T} (hi : i ∈ s.index.items) (k : Fin n)
    {q : UInt64 × T} (hq : v.afterBy k i.value = some q) : q.1 ≠ d.primaryKey i.value := fun heq => by
  have hlt : toLex (d.secondary k i.value, d.primaryKey i.value) < toLex (d.secondary k q.2, q.1) := by
    simpa using List.find?_some hq
  have hfind := find_of_firstBy hq
  rw [heq, (h.represents.items i hi).row] at hfind
  rw [heq, ← Option.some.inj hfind] at hlt
  exact lt_irrefl _ hlt

theorem nextBy_error (k : Fin n) {address : ℕ} {e : Failure} (hobject : m.object address = .error e) :
    MultiIndex.nextBy d m k (some address) = .error e := by
  rw [MultiIndex.nextBy, hobject]
  rfl

theorem prevBy_error (k : Fin n) {address : ℕ} {e : Failure} (hobject : m.object address = .error e) :
    MultiIndex.prevBy d m k (some address) = .error e := by
  rw [MultiIndex.prevBy, hobject]
  rfl

/-- A command that asks for no key succeeds exactly when the map's does, with
the same output. -/
theorem Matches.exec (h : Matches s v) {c : Cmd σ T} (hc : ¬ c.asksKey) (key : UInt64) :
    Agree Same (Session.exec d s c) (v.step key c) := by
  cases c with
  | emplace to_ row => exact h.emplace to_ rfl h.represents (.refl _)
  | emplaceAvailable to_ row => exact absurd trivial hc
  | modify on updater => exact h.modify on updater
  | eraseObject on => exact h.eraseObject on
  | erase on to_ =>
      exact h.erase on to_ (fun address e hobject => next_error hobject)
        (fun i hi => h.represents.next hi) fun i hi q hq => ne_of_after hq
  | eraseBy k on to_ =>
      exact h.erase on to_ (fun address e hobject => nextBy_error k hobject)
        (fun i hi => h.represents.nextBy k hi) fun i hi q hq => h.ne_of_afterBy hi k hq
  | find to_ pk => exact h.land_ok (h.represents.find pk) to_
  | lowerBound to_ pk => exact h.land_ok (h.represents.lowerBound pk) to_
  | upperBound to_ pk => exact h.land_ok (h.represents.upperBound pk) to_
  | begin_ to_ =>
      have hall : (fun k : UInt64 => decide (0 ≤ k)) = fun _ => true :=
        funext fun k => decide_eq_true (UInt64.zero_le ..)
      exact h.land_ok (hall ▸ h.represents.lowerBound 0) to_
  | end_ to_ =>
      have hend : s.index.Lands v.rows (none, s.index) none := ⟨h.represents, .refl _, trivial⟩
      exact h.land_ok ⟨_, rfl, hend⟩ to_
  | next on =>
      exact h.next on ⟨_, rfl⟩ (fun address e hobject => next_error hobject)
        fun i hi => h.represents.next hi
  | prev on =>
      exact h.back on (fun address e hobject => prev_error hobject) h.represents.prev_end
        fun i hi => h.represents.prev hi
  | findBy k to_ secondary => exact h.land_ok (h.represents.findBy k secondary) to_
  | lowerBoundBy k to_ secondary => exact h.land_ok (h.represents.lowerBoundBy k secondary) to_
  | upperBoundBy k to_ secondary => exact h.land_ok (h.represents.upperBoundBy k secondary) to_
  | nextBy k on =>
      exact h.next on ⟨_, rfl⟩ (fun address e hobject => nextBy_error k hobject)
        fun i hi => h.represents.nextBy k hi
  | prevBy k on =>
      exact h.back on (fun address e hobject => prevBy_error k hobject) (h.represents.prevBy_end k)
        fun i hi => h.represents.prevBy k hi
  | read on =>
      refine h.on (x := fun it => do
        let address ← getRow .deletedObject it ""
        let i ← s.index.object address
        pure (.row (some i.value), s)) on ⟨_, rfl⟩ (fun address e hobject => ⟨e, ?_⟩) fun i hi => ?_
      · rw [getRow, Rollback.ok_bind, hobject]
        rfl
      · rw [getRow, Rollback.ok_bind, h.represents.object_eq hi, Rollback.ok_bind]
        exact .ok ⟨rfl, h⟩
  | availablePrimaryKey => exact absurd trivial hc

/-- Every command that succeeds does what it does to the map. -/
theorem Matches.exec_sound (h : Matches s v) {c : Cmd σ T} {out : Out T} {s' : Session σ T}
    (hr : Session.exec d s c = .ok (out, s')) : ∃ v', v.Step c (out, v') ∧ Matches s' v' := by
  by_cases hc : c.asksKey
  · cases c with
    | emplaceAvailable to_ row =>
        obtain ⟨r', obj, hr', ⟨key, hbehind, rfl⟩, hsame⟩ := h.emplace_sound to_ hr
          (P := fun obj => ∃ key, (∀ pk row, v.rows.table.find pk = some row → pk < key) ∧
            row key = obj) fun c hc => by
          obtain ⟨key, hkey, hpair⟩ := bind_eq_ok.mp hc
          obtain ⟨hm, hgrown, hbehind⟩ := h.represents.availablePrimaryKey_sound hkey
          cases hpair
          exact ⟨hm, hgrown, key.1, hbehind, rfl⟩
        obtain ⟨out', v'⟩ := r'
        obtain ⟨rfl, hmatches⟩ := hsame
        exact ⟨v', ⟨key, fun _ => hbehind, hr'⟩, hmatches⟩
    | availablePrimaryKey =>
        rw [Session.exec, bind_eq_ok] at hr
        obtain ⟨key, hkey, hr⟩ := hr
        cases hr
        obtain ⟨hm, hgrown, hbehind⟩ := h.represents.availablePrimaryKey_sound hkey
        exact ⟨v, ⟨key.1, fun _ => hbehind, rfl⟩, h.grown hm hgrown⟩
    | _ => exact hc.elim
  · obtain ⟨r', hr', hsame⟩ := (h.exec hc 0).sound hr
    obtain ⟨out', v'⟩ := r'
    obtain ⟨rfl, hmatches⟩ := hsame
    exact ⟨v', ⟨0, fun h' => absurd h' hc, hr'⟩, hmatches⟩

/-! ### Programs -/

theorem Matches.run {cs : List (Cmd σ T)} : ∀ {s s' : Session σ T} {v : View d} {outs : List (Out T)},
    Matches s v → Session.execAll d s cs = .ok (outs, s') →
    ∃ v', View.Run v cs outs v' ∧ Matches s' v' := by
  induction cs with
  | nil =>
      intro s s' v outs h hr
      rw [Session.execAll, pure_eq_ok] at hr
      cases hr
      exact ⟨v, .nil v, h⟩
  | cons c cs ih =>
      intro s s' v outs h hr
      rw [Session.execAll, bind_eq_ok] at hr
      obtain ⟨r, hfirst, hr⟩ := hr
      rw [bind_eq_ok] at hr
      obtain ⟨rest, hrest, hr⟩ := hr
      cases hr
      obtain ⟨v₁, hstep, h₁⟩ := h.exec_sound hfirst
      obtain ⟨v', hrun, h'⟩ := ih h₁ hrest
      exact ⟨v', .cons hstep hrun, h'⟩

/-- No command on the map returns a row that is not in it. -/
theorem View.Step.live {c : Cmd σ T} {row : T} {v' : View d}
    (h : v.Step c (.row (some row), v')) : v'.rows.table.find (d.primaryKey row) = some row := by
  obtain ⟨key, -, h⟩ := h
  cases c with
  | emplace to_ obj => exact View.live_of_emplace h
  | emplaceAvailable to_ obj => exact View.live_of_emplace h
  | modify on updater =>
      obtain ⟨old, -, h⟩ := Option.bind_eq_some_iff.mp h
      split at h <;> cases h
  | eraseObject on =>
      obtain ⟨old, -, h⟩ := Option.bind_eq_some_iff.mp h
      split at h <;> cases h
  | erase on to_ => exact View.live_of_erase h
  | eraseBy k on to_ => exact View.live_of_erase h
  | prev on => exact View.live_of_back h
  | prevBy k on => exact View.live_of_back h
  | next on =>
      obtain ⟨old, -, h⟩ := Option.bind_eq_some_iff.mp h
      exact View.live_of_land (Option.some.inj h)
  | nextBy k on =>
      obtain ⟨old, -, h⟩ := Option.bind_eq_some_iff.mp h
      exact View.live_of_land (Option.some.inj h)
  | read on =>
      obtain ⟨old, hold, h⟩ := Option.bind_eq_some_iff.mp h
      cases h
      rw [View.row] at hold
      split at hold
      · rename_i pk _
        rw [v.rows.keyed pk row hold]
        exact hold
      · cases hold
  | availablePrimaryKey => cases h
  | _ => exact View.live_of_land (Option.some.inj h)

end Commands

/-- Two rows, one of them modified and erased, under one secondary index. -/
def pairs : Schema (fun _ : Fin 1 => UInt64) (UInt64 × UInt64) where
  serial := .cons (.primitive .uint64) (.primitive .uint64)
  primaryKey := Prod.fst
  secondary _ := Prod.snd

end Xidata.Eosiolib
