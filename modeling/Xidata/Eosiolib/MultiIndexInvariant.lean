import Xidata.Eosiolib.MultiIndex
import Xidata.Eosiolib.PackRoundTrip

/-!
What the state of a `multi_index` stands for: a map from primary keys to
objects.  The objects in memory, the rows of the database and the entries of
every index agree with the map, and every iterator that is filled in belongs
to the row of its object.
-/

namespace Xidata.Eosiolib

open OrderedTable

variable {n : ℕ} {σ : Fin n → Type} {T : Type} {d : Schema σ T}

/-- A map from primary keys to objects that have them. -/
structure Rows (d : Schema σ T) where
  table : OrderedTable UInt64 T
  keyed : ∀ pk row, table.find pk = some row → d.primaryKey row = pk

namespace Rows

def empty : Rows d := ⟨.empty, fun _ _ h => by cases h⟩

def put (a : Rows d) (row : T) : Rows d where
  table := a.table.set (d.primaryKey row) row
  keyed pk r h := by
    rw [find_set] at h
    split at h
    · rename_i hpk
      exact Option.some.inj h ▸ hpk.symm
    · exact a.keyed pk r h

def remove (a : Rows d) (pk : UInt64) : Rows d where
  table := a.table.erase pk
  keyed k r h := by
    rw [find_erase] at h
    split at h
    · cases h
    · exact a.keyed k r h

end Rows

namespace MultiIndex

/-- An object in memory is the row of its primary key. -/
structure ItemOk (d : Schema σ T) (m : MultiIndex σ T) (a : Rows d) (i : Item n T) : Prop where
  row : a.table.find (d.primaryKey i.value) = some i.value
  itr : m.primary.primaryAt i.primaryItr = some (d.primaryKey i.value)
  iters : ∀ k, i.iters k = -1 ∨ (m.indices k).primaryAt (i.iters k) = some (d.primaryKey i.value)

structure Represents (m : MultiIndex σ T) (a : Rows d) : Prop where
  primary : m.primary.rows = a.table.mapRows d.serial.encode
  primaryValid : m.primary.Valid
  indices : ∀ k, (m.indices k).rows = a.table.mapRows (d.secondary k)
  indicesValid : ∀ k, (m.indices k).Valid
  items : ∀ i ∈ m.items, ItemOk d m a i
  addresses : (m.items.map Item.address).Nodup
  keys : (m.items.map fun i => d.primaryKey i.value).Nodup
  fresh : ∀ i ∈ m.items, i.address < m.nextAddress
  nextKey : m.nextPrimaryKey = unsetNextPrimaryKey ∨ m.nextPrimaryKey = noAvailablePrimaryKey ∨
    ∀ pk row, a.table.find pk = some row → pk < m.nextPrimaryKey

theorem valid_nil {ρ : Type} (rows : OrderedTable UInt64 ρ) : (DbTable.mk rows []).Valid where
  live itr pk h := by
    rw [DbTable.primaryAt_eq_some] at h
    cases h.2
  unique itr itr' pk h := by
    rw [DbTable.primaryAt_eq_some] at h
    cases h.2

/-- A new instance over the rows of a map. -/
theorem represents_new (d : Schema σ T) (code receiver : AccountName) (a : Rows d) :
    Represents ({
      code
      receiver
      primary := ⟨a.table.mapRows d.serial.encode, []⟩
      indices := fun k => ⟨a.table.mapRows (d.secondary k), []⟩ } : MultiIndex σ T) a where
  primary := rfl
  primaryValid := valid_nil _
  indices k := rfl
  indicesValid k := valid_nil _
  items i hi := by cases hi
  addresses := List.nodup_nil
  keys := List.nodup_nil
  fresh i hi := by cases hi
  nextKey := .inl rfl

/-- `m'` knows the objects of `m`, with the same primary keys, and perhaps more. -/
structure Grown (d : Schema σ T) (m m' : MultiIndex σ T) : Prop where
  same : m'.code = m.code ∧ m'.receiver = m.receiver
  kept : ∀ i ∈ m.items, ∃ i' ∈ m'.items,
    i'.address = i.address ∧ d.primaryKey i'.value = d.primaryKey i.value
  old : ∀ i' ∈ m'.items, i'.address < m.nextAddress → ∃ i ∈ m.items, i.address = i'.address
  next : m.nextAddress ≤ m'.nextAddress
  iterators : ∀ k, (m.indices k).Keeps (m'.indices k)

theorem Grown.refl (m : MultiIndex σ T) : Grown d m m :=
  ⟨⟨rfl, rfl⟩, fun i hi => ⟨i, hi, rfl, rfl⟩, fun i hi _ => ⟨i, hi, rfl⟩, le_refl _,
    fun _ => .refl _⟩

theorem Grown.trans {m₁ m₂ m₃ : MultiIndex σ T} (h : Grown d m₁ m₂) (h' : Grown d m₂ m₃) :
    Grown d m₁ m₃ where
  same := ⟨h'.same.1.trans h.same.1, h'.same.2.trans h.same.2⟩
  kept i hi := by
    obtain ⟨i₂, hi₂, ha₂, hv₂⟩ := h.kept i hi
    obtain ⟨i₃, hi₃, ha₃, hv₃⟩ := h'.kept i₂ hi₂
    exact ⟨i₃, hi₃, ha₃.trans ha₂, hv₃.trans hv₂⟩
  old i₃ hi₃ hlt := by
    obtain ⟨i₂, hi₂, ha₂⟩ := h'.old i₃ hi₃ (lt_of_lt_of_le hlt h.next)
    obtain ⟨i₁, hi₁, ha₁⟩ := h.old i₂ hi₂ (ha₂ ▸ hlt)
    exact ⟨i₁, hi₁, ha₁.trans ha₂⟩
  next := h.next.trans h'.next
  iterators k := (h.iterators k).trans (h'.iterators k)

section Represents

variable {m : MultiIndex σ T} {a : Rows d} {i j : Item n T}

theorem Represents.eq_of_key (h : Represents m a) (hi : i ∈ m.items) (hj : j ∈ m.items)
    (hkey : d.primaryKey i.value = d.primaryKey j.value) : i = j :=
  List.inj_on_of_nodup_map h.keys hi hj hkey

theorem Represents.eq_of_address (h : Represents m a) (hi : i ∈ m.items) (hj : j ∈ m.items)
    (haddress : i.address = j.address) : i = j :=
  List.inj_on_of_nodup_map h.addresses hi hj haddress

/-- The only object with a property that determines objects is the one found. -/
theorem find?_eq_some_of_unique {l : List (Item n T)} {p : Item n T → Bool} (hi : i ∈ l)
    (hp : p i) (hunique : ∀ j ∈ l, p j → j = i) : l.find? p = some i := by
  cases hfind : l.find? p with
  | none => exact absurd hp (by simpa using List.find?_eq_none.mp hfind i hi)
  | some j =>
      have hj := hunique j (List.mem_of_find?_eq_some hfind) (List.find?_some hfind)
      rw [hj]

theorem Represents.object_eq (h : Represents m a) (hi : i ∈ m.items) :
    m.object i.address = .ok i := by
  refine getRow_eq_ok.mpr (find?_eq_some_of_unique hi (decide_eq_true rfl) fun j hj hp => ?_)
  exact h.eq_of_address hj hi (of_decide_eq_true hp)

theorem Represents.find_key (h : Represents m a) (hi : i ∈ m.items) :
    (m.items.reverse.find? fun j => d.primaryKey j.value = d.primaryKey i.value) = some i := by
  refine find?_eq_some_of_unique (List.mem_reverse.mpr hi) (decide_eq_true rfl) fun j hj hp => ?_
  exact h.eq_of_key (List.mem_reverse.mp hj) hi (of_decide_eq_true hp)

/-- Finding a row changes no more of the database than its iterators. -/
theorem Represents.withPrimary (h : Represents m a) {p : Option (UInt64 × Bytes)}
    {f : DbFound Bytes} (hf : DbTable.Found m.primary p f) :
    Represents { m with primary := f.table } a where
  primary := hf.rows.trans h.primary
  primaryValid := hf.valid
  indices := h.indices
  indicesValid := h.indicesValid
  items i hi := ⟨(h.items i hi).row, hf.keeps _ _ (h.items i hi).itr, (h.items i hi).iters⟩
  addresses := h.addresses
  keys := h.keys
  fresh := h.fresh
  nextKey := h.nextKey

theorem Represents.withIndex (h : Represents m a) (k : Fin n) {t : DbTable (σ k)}
    (hrows : t.rows = (m.indices k).rows) (hvalid : t.Valid) (hkeeps : (m.indices k).Keeps t) :
    Represents { m with indices := Function.update m.indices k t } a where
  primary := h.primary
  primaryValid := h.primaryValid
  indices k' := by
    by_cases hk : k' = k
    · subst hk
      show (Function.update m.indices k' t k').rows = _
      rw [Function.update_self, hrows, h.indices]
    · show (Function.update m.indices k t k').rows = _
      rw [Function.update_of_ne hk, h.indices]
  indicesValid k' := by
    by_cases hk : k' = k
    · subst hk
      show (Function.update m.indices k' t k').Valid
      rw [Function.update_self]
      exact hvalid
    · show (Function.update m.indices k t k').Valid
      rw [Function.update_of_ne hk]
      exact h.indicesValid k'
  items i hi := by
    refine ⟨(h.items i hi).row, (h.items i hi).itr, fun k' => ?_⟩
    refine ((h.items i hi).iters k').imp_right fun hitr => ?_
    by_cases hk : k' = k
    · subst hk
      show (Function.update m.indices k' t k').primaryAt _ = _
      rw [Function.update_self]
      exact hkeeps _ _ hitr
    · show (Function.update m.indices k t k').primaryAt _ = _
      rw [Function.update_of_ne hk]
      exact hitr
  addresses := h.addresses
  keys := h.keys
  fresh := h.fresh
  nextKey := h.nextKey

theorem mem_update {i' : Item n T} :
    j ∈ (m.update i').items ↔ ∃ i ∈ m.items, (if i.address = i'.address then i' else i) = j := by
  rw [update, List.mem_map]

theorem mem_update_self {i' : Item n T} (hi : i ∈ m.items) (haddress : i'.address = i.address) :
    i' ∈ (m.update i').items :=
  mem_update.mpr ⟨i, hi, if_pos haddress.symm⟩

theorem Represents.update_same (h : Represents m a) (hi : i ∈ m.items) {i' : Item n T}
    (haddress : i'.address = i.address) (hkey : d.primaryKey i'.value = d.primaryKey i.value)
    (hj : j ∈ m.items) :
    (if j.address = i'.address then i' else j).address = j.address ∧
      d.primaryKey (if j.address = i'.address then i' else j).value = d.primaryKey j.value := by
  split
  · rename_i hj'
    have heq := h.eq_of_address hj hi (hj'.trans haddress)
    exact ⟨hj'.symm, heq ▸ hkey⟩
  · exact ⟨rfl, rfl⟩

/-- The objects' identities do not change when one of them is updated. -/
theorem Represents.update_addresses (h : Represents m a) (hi : i ∈ m.items) {i' : Item n T}
    (haddress : i'.address = i.address) (hkey : d.primaryKey i'.value = d.primaryKey i.value) :
    (m.update i').items.map Item.address = m.items.map Item.address ∧
      ((m.update i').items.map fun j => d.primaryKey j.value) =
        m.items.map fun j => d.primaryKey j.value := by
  rw [MultiIndex.update, List.map_map, List.map_map]
  exact ⟨List.map_congr_left fun j hj => (h.update_same hi haddress hkey hj).1,
    List.map_congr_left fun j hj => (h.update_same hi haddress hkey hj).2⟩

/-- An object may get other iterators of its row. -/
theorem Represents.update (h : Represents m a) (hi : i ∈ m.items) {i' : Item n T}
    (haddress : i'.address = i.address) (hkey : d.primaryKey i'.value = d.primaryKey i.value)
    (hok : ItemOk d m a i') : Represents (m.update i') a where
  primary := h.primary
  primaryValid := h.primaryValid
  indices := h.indices
  indicesValid := h.indicesValid
  items j hj := by
    obtain ⟨i₀, hi₀, rfl⟩ := mem_update.mp hj
    split
    · exact ⟨hok.row, hok.itr, hok.iters⟩
    · exact ⟨(h.items i₀ hi₀).row, (h.items i₀ hi₀).itr, (h.items i₀ hi₀).iters⟩
  addresses := (h.update_addresses hi haddress hkey).1 ▸ h.addresses
  keys := (h.update_addresses hi haddress hkey).2 ▸ h.keys
  fresh j hj := by
    obtain ⟨i₀, hi₀, rfl⟩ := mem_update.mp hj
    split
    · exact haddress ▸ h.fresh i hi
    · exact h.fresh i₀ hi₀
  nextKey := h.nextKey

theorem Represents.grown_update (h : Represents m a) (hi : i ∈ m.items) {i' : Item n T}
    (haddress : i'.address = i.address) (hkey : d.primaryKey i'.value = d.primaryKey i.value) :
    Grown d m (m.update i') where
  same := ⟨rfl, rfl⟩
  kept j hj := ⟨_, mem_update.mpr ⟨j, hj, rfl⟩, h.update_same hi haddress hkey hj⟩
  old j hj _ := by
    obtain ⟨i₀, hi₀, rfl⟩ := mem_update.mp hj
    refine ⟨i₀, hi₀, ?_⟩
    split
    · assumption
    · rfl
  next := le_refl _
  iterators k := .refl _

end Represents

end MultiIndex

end Xidata.Eosiolib
