import Xidata.Eosiolib.Host
import Xidata.Library.OrderedTable

/-!
A table of the chain's database as a contract sees it during one action: rows
in the order of their primary keys, read and written through iterators.  The
functions of a secondary index are the same over rows that hold the secondary
key, in the order of these keys and then of the primary ones.

An iterator is a number that the chain hands out for a row when the row is
first come across; the row keeps it until it is removed.  A negative number
stands for the end of the table.
-/

namespace Xidata.Eosiolib

open OrderedTable

structure DbTable (ρ : Type) where
  rows : OrderedTable UInt64 ρ
  /-- The primary key of the row that each iterator belongs to. -/
  iterators : List (Option UInt64) := []

/-- What a function of the database returns: an iterator, the primary key it
stores through its pointer argument, and the table with the iterators known. -/
structure DbFound (ρ : Type) where
  itr : ℤ
  primary : UInt64
  table : DbTable ρ

namespace DbTable

variable {ρ : Type}

def primaryAt (t : DbTable ρ) (itr : ℤ) : Option UInt64 :=
  if 0 ≤ itr then t.iterators.getD itr.toNat none else none

def endIterator : ℤ := -2

/-- The iterator of a row, a new one if it has none. -/
def iteratorTo (t : DbTable ρ) : Option (UInt64 × ρ) → DbFound ρ
  | none => ⟨endIterator, 0, t⟩
  | some (pk, _) =>
    match t.iterators.idxOf? (some pk) with
    | some i => ⟨i, pk, t⟩
    | none => ⟨t.iterators.length, pk, { t with iterators := t.iterators ++ [some pk] }⟩

/-- The row an iterator belongs to. -/
def rowAt (t : DbTable ρ) (itr : ℤ) : Result (UInt64 × ρ) := do
  let pk ← getRow .database (t.primaryAt itr) "invalid iterator"
  let row ← getRow .database (t.rows.find pk) "dereference of deleted object"
  pure (pk, row)

/-! ### The primary table -/

def dbGet (t : DbTable ρ) (itr : ℤ) : Result ρ := Prod.snd <$> t.rowAt itr

def dbStore (t : DbTable ρ) (pk : UInt64) (row : ρ) : Result (DbFound ρ) := do
  eosioAssert .database (t.rows.find pk = none) "row already exists"
  pure ({ t with rows := t.rows.set pk row }.iteratorTo (some (pk, row)))

def dbUpdate (t : DbTable ρ) (itr : ℤ) (row : ρ) : Result (DbTable ρ) := do
  let r ← t.rowAt itr
  pure { t with rows := t.rows.set r.1 row }

def dbRemove (t : DbTable ρ) (itr : ℤ) : Result (DbTable ρ) := do
  let r ← t.rowAt itr
  pure { rows := t.rows.erase r.1, iterators := t.iterators.set itr.toNat none }

def dbFind (t : DbTable ρ) (pk : UInt64) : DbFound ρ :=
  t.iteratorTo ((t.rows.find pk).map fun row => (pk, row))

def dbLowerbound (t : DbTable ρ) (pk : UInt64) : DbFound ρ :=
  t.iteratorTo (t.rows.first fun k => pk ≤ k)

def dbUpperbound (t : DbTable ρ) (pk : UInt64) : DbFound ρ :=
  t.iteratorTo (t.rows.first fun k => pk < k)

/-- An empty table has no end iterator. -/
def dbEnd (t : DbTable ρ) : ℤ := if t.rows.rows.isEmpty then -1 else endIterator

def dbNext (t : DbTable ρ) (itr : ℤ) : Result (DbFound ρ) := do
  let r ← t.rowAt itr
  pure (t.iteratorTo (t.rows.first fun k => r.1 < k))

def dbPrevious (t : DbTable ρ) (itr : ℤ) : Result (DbFound ρ) :=
  if itr = endIterator then pure (t.iteratorTo (t.rows.last fun _ => true))
  else do
    let r ← t.rowAt itr
    pure (t.iteratorTo (t.rows.last fun k => k < r.1))

/-! ### Secondary indices -/

section Secondary

variable [LinearOrder ρ]

def dbIdxLowerbound (t : DbTable ρ) (secondary : ρ) : DbFound ρ :=
  t.iteratorTo (t.rows.firstBy id fun q => secondary ≤ (ofLex q).1)

def dbIdxUpperbound (t : DbTable ρ) (secondary : ρ) : DbFound ρ :=
  t.iteratorTo (t.rows.firstBy id fun q => secondary < (ofLex q).1)

def dbIdxNext (t : DbTable ρ) (itr : ℤ) : Result (DbFound ρ) := do
  let r ← t.rowAt itr
  pure (t.iteratorTo (t.rows.firstBy id fun q => toLex (r.2, r.1) < q))

def dbIdxPrevious (t : DbTable ρ) (itr : ℤ) : Result (DbFound ρ) :=
  if itr = endIterator then pure (t.iteratorTo (t.rows.lastBy id fun _ => true))
  else do
    let r ← t.rowAt itr
    pure (t.iteratorTo (t.rows.lastBy id fun q => q < toLex (r.2, r.1)))

end Secondary

/-! ### Iterators stay with their rows -/

/-- An iterator belongs to a row that is there, and no two to the same. -/
structure Valid (t : DbTable ρ) : Prop where
  live : ∀ itr pk, t.primaryAt itr = some pk → t.rows.find pk ≠ none
  unique : ∀ itr itr' pk, t.primaryAt itr = some pk → t.primaryAt itr' = some pk → itr = itr'

/-- Every iterator of `t` belongs to the same row in `t'`. -/
def Keeps (t t' : DbTable ρ) : Prop :=
  ∀ itr pk, t.primaryAt itr = some pk → t'.primaryAt itr = some pk

theorem Keeps.refl (t : DbTable ρ) : t.Keeps t := fun _ _ h => h

theorem Keeps.trans {t₁ t₂ t₃ : DbTable ρ} (h : t₁.Keeps t₂) (h' : t₂.Keeps t₃) : t₁.Keeps t₃ :=
  fun itr pk hitr => h' itr pk (h itr pk hitr)

variable {t : DbTable ρ} {itr : ℤ} {pk : UInt64}

theorem nonneg_of_primaryAt (h : t.primaryAt itr = some pk) : 0 ≤ itr := by
  by_contra hneg
  rw [primaryAt, if_neg hneg] at h
  cases h

theorem primaryAt_eq_some :
    t.primaryAt itr = some pk ↔ 0 ≤ itr ∧ t.iterators[itr.toNat]? = some (some pk) := by
  by_cases h : 0 ≤ itr
  · rw [primaryAt, if_pos h, List.getD_eq_getElem?_getD, and_iff_right h]
    cases t.iterators[itr.toNat]? <;> simp
  · rw [primaryAt, if_neg h]
    simp [h]

theorem rowAt_eq_ok {r : UInt64 × ρ} :
    t.rowAt itr = .ok r ↔ t.primaryAt itr = some r.1 ∧ t.rows.find r.1 = some r.2 := by
  simp only [rowAt, Rollback.bind_eq_ok, getRow_eq_ok, Rollback.pure_eq_ok]
  constructor
  · rintro ⟨pk, hpk, row, hrow, rfl⟩
    exact ⟨hpk, hrow⟩
  · rintro ⟨hpk, hrow⟩
    exact ⟨r.1, hpk, r.2, hrow, rfl⟩

/-- What it is to have found the row of `p`, or none. -/
structure Found (t : DbTable ρ) (p : Option (UInt64 × ρ)) (f : DbFound ρ) : Prop where
  rows : f.table.rows = t.rows
  valid : f.table.Valid
  keeps : t.Keeps f.table
  none : p = none → f.itr < 0
  some : ∀ q, p = some q → f.primary = q.1 ∧ f.table.primaryAt f.itr = some q.1

theorem primaryAt_append {x : Option UInt64} {l : List (Option UInt64)} {rows : OrderedTable UInt64 ρ}
    (h : (DbTable.mk rows (l ++ [x])).primaryAt itr = some pk) :
    (DbTable.mk rows l).primaryAt itr = some pk ∨ itr = l.length ∧ x = some pk := by
  obtain ⟨hpos, hget⟩ := primaryAt_eq_some.mp h
  rcases lt_or_ge itr.toNat l.length with hlt | hge
  · rw [List.getElem?_append_left hlt] at hget
    exact .inl (primaryAt_eq_some.mpr ⟨hpos, hget⟩)
  · rw [List.getElem?_append_right hge, List.getElem?_singleton] at hget
    split at hget
    · rename_i hlen
      exact .inr ⟨by omega, Option.some.inj hget⟩
    · cases hget

theorem keeps_append (rows rows' : OrderedTable UInt64 ρ) (l : List (Option UInt64))
    (x : Option UInt64) : (DbTable.mk rows l).Keeps (DbTable.mk rows' (l ++ [x])) := by
  intro itr pk h
  obtain ⟨hpos, hget⟩ := primaryAt_eq_some.mp h
  have hlt : itr.toNat < l.length := (List.getElem?_eq_some_iff.mp hget).1
  exact primaryAt_eq_some.mpr ⟨hpos, by rwa [List.getElem?_append_left hlt]⟩

/-- A new iterator for a row that has none. -/
theorem Valid.append (h : t.Valid) (hrow : t.rows.find pk ≠ none)
    (hnew : ∀ itr, t.primaryAt itr ≠ some pk) :
    (DbTable.mk t.rows (t.iterators ++ [some pk])).Valid where
  live itr pk' h' := by
    rcases primaryAt_append h' with h' | ⟨-, h'⟩
    · exact h.live itr pk' h'
    · exact Option.some.inj h' ▸ hrow
  unique itr itr' pk' h₁ h₂ := by
    rcases primaryAt_append h₁ with k₁ | ⟨e₁, k₁⟩
    · rcases primaryAt_append h₂ with k₂ | ⟨-, k₂⟩
      · exact h.unique itr itr' pk' k₁ k₂
      · exact absurd k₁ (Option.some.inj k₂ ▸ hnew itr)
    · rcases primaryAt_append h₂ with k₂ | ⟨e₂, -⟩
      · exact absurd k₂ (Option.some.inj k₁ ▸ hnew itr')
      · exact e₁.trans e₂.symm

/-- The iterator of a row belongs to it, and finding it changes no other. -/
theorem Valid.iteratorTo (h : t.Valid) {p : Option (UInt64 × ρ)}
    (hp : ∀ q, p = some q → t.rows.find q.1 ≠ none) : Found t p (t.iteratorTo p) := by
  cases p with
  | none => exact ⟨rfl, h, Keeps.refl t, fun _ => Int.negSucc_lt_zero 1,
      fun q hq => by cases hq⟩
  | some q =>
      obtain ⟨pk, row⟩ := q
      have hrow : t.rows.find pk ≠ none := hp _ rfl
      rw [DbTable.iteratorTo]
      split
      · rename_i i hi
        obtain ⟨hlt, hget, -⟩ := List.idxOf?_eq_some_iff.mp hi
        refine ⟨rfl, h, Keeps.refl t, (fun hq => by cases hq), fun q hq => ?_⟩
        cases hq
        refine ⟨rfl, primaryAt_eq_some.mpr ⟨Int.natCast_nonneg i, ?_⟩⟩
        exact List.getElem?_eq_some_iff.mpr ⟨hlt, hget⟩
      · rename_i hi
        have hnew : ∀ itr, t.primaryAt itr ≠ some pk := fun itr hitr =>
          List.idxOf?_eq_none_iff.mp hi (List.mem_of_getElem? (primaryAt_eq_some.mp hitr).2)
        refine ⟨rfl, h.append hrow hnew, keeps_append _ _ _ _, (fun hq => by cases hq),
          fun q hq => ?_⟩
        cases hq
        refine ⟨rfl, primaryAt_eq_some.mpr ⟨Int.natCast_nonneg _, ?_⟩⟩
        exact List.getElem?_concat_length

/-! ### Writing -/

theorem dbStore_eq_ok {row : ρ} {f : DbFound ρ} :
    t.dbStore pk row = .ok f ↔ t.rows.find pk = none ∧
      DbTable.iteratorTo { t with rows := t.rows.set pk row } (some (pk, row)) = f := by
  simp only [dbStore, Rollback.bind_eq_ok, eosioAssert_eq_ok, Rollback.pure_eq_ok, exists_const]

theorem dbUpdate_eq_ok {row : ρ} {t' : DbTable ρ} :
    t.dbUpdate itr row = .ok t' ↔
      ∃ r, t.rowAt itr = .ok r ∧ { t with rows := t.rows.set r.1 row } = t' := by
  simp only [dbUpdate, Rollback.bind_eq_ok, Rollback.pure_eq_ok]

theorem dbRemove_eq_ok {t' : DbTable ρ} :
    t.dbRemove itr = .ok t' ↔ ∃ r, t.rowAt itr = .ok r ∧
      DbTable.mk (t.rows.erase r.1) (t.iterators.set itr.toNat none) = t' := by
  simp only [dbRemove, Rollback.bind_eq_ok, Rollback.pure_eq_ok]

/-- A written row leaves the iterators as they are. -/
theorem Valid.set (h : t.Valid) (pk : UInt64) (row : ρ) :
    (DbTable.mk (t.rows.set pk row) t.iterators).Valid where
  live itr k hk := by
    have hlive := h.live itr k hk
    rw [find_set]
    split
    · exact Option.some_ne_none row
    · exact hlive
  unique := h.unique

/-- A new row, with an iterator of its own. -/
theorem Valid.dbStore (h : t.Valid) (hnew : t.rows.find pk = none) (row : ρ) :
    ∃ f, t.dbStore pk row = .ok f ∧ f.table.rows = t.rows.set pk row ∧ f.table.Valid ∧
      t.Keeps f.table ∧ f.table.primaryAt f.itr = some pk := by
  have hfound := (h.set pk row).iteratorTo (p := some (pk, row)) fun q hq => by
    cases hq
    rw [find_set_self]
    exact Option.some_ne_none row
  refine ⟨_, dbStore_eq_ok.mpr ⟨hnew, rfl⟩, hfound.rows, hfound.valid, hfound.keeps, ?_⟩
  exact (hfound.some _ rfl).2

theorem primaryAt_set_none {i : ℕ} {rows : OrderedTable UInt64 ρ} {l : List (Option UInt64)} :
    (DbTable.mk rows (l.set i none)).primaryAt itr = some pk ↔
      itr.toNat ≠ i ∧ (DbTable.mk rows l).primaryAt itr = some pk := by
  rw [primaryAt_eq_some, primaryAt_eq_some, List.getElem?_set]
  by_cases hi : i = itr.toNat
  · subst hi
    by_cases hlt : itr.toNat < l.length <;> simp [hlt]
  · simp [hi, Ne.symm hi]

/-- Only the iterator of the row that is removed goes with it. -/
theorem Valid.remove (h : t.Valid) (hitr : t.primaryAt itr = some pk) :
    (DbTable.mk (t.rows.erase pk) (t.iterators.set itr.toNat none)).Valid where
  live itr' k hk := by
    obtain ⟨hne, hk⟩ := primaryAt_set_none.mp hk
    have hother : k ≠ pk := fun heq => by
      have hsame := h.unique itr' itr pk (heq ▸ hk) hitr
      exact hne (hsame ▸ rfl)
    rw [find_erase_of_ne _ hother]
    exact h.live itr' k hk
  unique itr₁ itr₂ k h₁ h₂ :=
    h.unique itr₁ itr₂ k (primaryAt_set_none.mp h₁).2 (primaryAt_set_none.mp h₂).2

theorem primaryAt_remove (hitr : t.primaryAt itr = some pk)
    (rows : OrderedTable UInt64 ρ) {itr' : ℤ} {k : UInt64} (hk : t.primaryAt itr' = some k)
    (hne : k ≠ pk) :
    (DbTable.mk rows (t.iterators.set itr.toNat none)).primaryAt itr' = some k := by
  refine primaryAt_set_none.mpr ⟨fun heq => hne ?_, hk⟩
  have hsame : itr' = itr := by
    have h₁ := nonneg_of_primaryAt hitr
    have h₂ := nonneg_of_primaryAt hk
    omega
  rw [hsame, hitr] at hk
  exact (Option.some.inj hk).symm

end DbTable

end Xidata.Eosiolib
