import Mathlib.Algebra.BigOperators.Group.List.Basic
import Mathlib.Algebra.Order.BigOperators.Group.List
import Mathlib.Data.List.Perm.Subperm
import Mathlib.Data.List.Sort
import Mathlib.Data.Prod.Lex
import Mathlib.Tactic.Abel

/-!
Finite maps kept as a list of rows with strictly increasing keys: what a
key-value store with a primary index is for, independently of how the store
is laid out.  Reading, writing and erasing are by key; iteration is in key
order; a weighted sum over all rows is the form in which conservation laws
about a store are stated.

Everything is derived from two facts: a row is found exactly when it is in
the list (`find_eq_some`), and splitting off one key splits every sum
(`sum_eq_erase`).
-/

/-- Rows `(k, r)` in strictly increasing order of their keys. -/
structure OrderedTable (κ ρ : Type*) [LinearOrder κ] where
  rows : List (κ × ρ)
  sorted : rows.Pairwise (fun a b => a.1 < b.1)

namespace OrderedTable

variable {κ ρ M : Type*} [LinearOrder κ]

def empty : OrderedTable κ ρ := ⟨[], List.Pairwise.nil⟩

instance : Inhabited (OrderedTable κ ρ) := ⟨empty⟩

def find (t : OrderedTable κ ρ) (k : κ) : Option ρ :=
  (t.rows.find? (fun p => p.1 = k)).map Prod.snd

def erase (t : OrderedTable κ ρ) (k : κ) : OrderedTable κ ρ :=
  ⟨t.rows.filter (fun p => p.1 ≠ k), t.sorted.filter _⟩

def size (t : OrderedTable κ ρ) : ℕ := t.rows.length

def keys (t : OrderedTable κ ρ) : List κ := t.rows.map Prod.fst

/-! ### Writing a row -/

private theorem sorted_orderedInsert (k : κ) (r : ρ) (l : List (κ × ρ))
    (hl : l.Pairwise (fun a b => a.1 < b.1)) (hk : ∀ p ∈ l, p.1 ≠ k) :
    (l.orderedInsert (fun a b => a.1 < b.1) (k, r)).Pairwise (fun a b => a.1 < b.1) := by
  induction l with
  | nil => simp
  | cons p l ih =>
      obtain ⟨hp, hl⟩ := List.pairwise_cons.mp hl
      have hne : p.1 ≠ k := hk p (by simp)
      by_cases hlt : k < p.1
      · rw [List.orderedInsert_cons, if_pos (show (k, r).1 < p.1 from hlt)]
        refine List.pairwise_cons.mpr ⟨fun q hq => ?_, List.pairwise_cons.mpr ⟨hp, hl⟩⟩
        rcases List.mem_cons.mp hq with rfl | hq
        · exact hlt
        · exact hlt.trans (hp q hq)
      · rw [List.orderedInsert_cons, if_neg (show ¬ (k, r).1 < p.1 from hlt)]
        refine List.pairwise_cons.mpr ⟨fun q hq => ?_, ih hl fun q hq => hk q (by simp [hq])⟩
        rcases (List.mem_orderedInsert _).mp hq with rfl | hq
        · exact lt_of_le_of_ne (not_lt.mp hlt) hne
        · exact hp q hq

/-- Write the row of key `k`, replacing the one that is there. -/
def set (t : OrderedTable κ ρ) (k : κ) (r : ρ) : OrderedTable κ ρ where
  rows := (t.erase k).rows.orderedInsert (fun a b => a.1 < b.1) (k, r)
  sorted := sorted_orderedInsert k r _ (t.erase k).sorted fun p hp => by
    simpa using (List.mem_filter.mp hp).2

/-- Apply `f` to the row of key `k`, if there is one. -/
def modify (t : OrderedTable κ ρ) (k : κ) (f : ρ → ρ) : OrderedTable κ ρ :=
  match t.find k with
  | some r => t.set k (f r)
  | none => t

/-! ### Reading -/

theorem nodup_keys (t : OrderedTable κ ρ) : t.keys.Nodup :=
  List.pairwise_map.mpr (t.sorted.imp fun h => h.ne)

theorem eq_of_mem_rows {t : OrderedTable κ ρ} {k : κ} {r r' : ρ}
    (h : (k, r) ∈ t.rows) (h' : (k, r') ∈ t.rows) : r = r' := by
  have hinj := List.inj_on_of_nodup_map t.nodup_keys h h' rfl
  exact (Prod.mk.injEq _ _ _ _ ▸ hinj).2

theorem find_eq_some {t : OrderedTable κ ρ} {k : κ} {r : ρ} :
    t.find k = some r ↔ (k, r) ∈ t.rows := by
  constructor
  · intro h
    obtain ⟨⟨k', r'⟩, hp, rfl⟩ := Option.map_eq_some_iff.mp h
    have hk : k' = k := by simpa using List.find?_some hp
    exact hk ▸ List.mem_of_find?_eq_some hp
  · intro h
    cases hf : t.rows.find? (fun p => p.1 = k) with
    | none => exact absurd (List.find?_eq_none.mp hf _ h) (by simp)
    | some p =>
        have hk : p.1 = k := by simpa using List.find?_some hf
        have hr : p.2 = r :=
          eq_of_mem_rows (k := k) (hk ▸ List.mem_of_find?_eq_some hf) h
        simp [find, hf, hr]

theorem find_eq_none {t : OrderedTable κ ρ} {k : κ} :
    t.find k = none ↔ ∀ r, (k, r) ∉ t.rows := by
  rw [Option.eq_none_iff_forall_ne_some]
  exact forall_congr' fun r => not_congr find_eq_some

theorem mem_keys {t : OrderedTable κ ρ} {k : κ} : k ∈ t.keys ↔ ∃ r, t.find k = some r := by
  simp only [keys, List.mem_map, find_eq_some]
  constructor
  · rintro ⟨⟨k', r⟩, h, rfl⟩; exact ⟨r, h⟩
  · rintro ⟨r, h⟩; exact ⟨(k, r), h, rfl⟩

theorem mem_rows_set {t : OrderedTable κ ρ} {k k' : κ} {r r' : ρ} :
    (k', r') ∈ (t.set k r).rows ↔
      (k' = k ∧ r' = r) ∨ (k' ≠ k ∧ (k', r') ∈ t.rows) := by
  simp only [set, List.mem_orderedInsert, erase, List.mem_filter, Prod.mk.injEq,
    decide_eq_true_eq]
  tauto

@[simp] theorem find_empty (k : κ) : (empty : OrderedTable κ ρ).find k = none := rfl

theorem find_set (t : OrderedTable κ ρ) (k k' : κ) (r : ρ) :
    (t.set k r).find k' = if k' = k then some r else t.find k' := by
  apply Option.ext
  intro r'
  rw [find_eq_some, mem_rows_set]
  by_cases h : k' = k
  · simp [h, eq_comm]
  · simp [h, find_eq_some]

@[simp] theorem find_set_self (t : OrderedTable κ ρ) (k : κ) (r : ρ) :
    (t.set k r).find k = some r := by
  rw [find_set, if_pos rfl]

theorem find_set_of_ne (t : OrderedTable κ ρ) {k k' : κ} (h : k' ≠ k) (r : ρ) :
    (t.set k r).find k' = t.find k' := by
  rw [find_set, if_neg h]

theorem find_erase (t : OrderedTable κ ρ) (k k' : κ) :
    (t.erase k).find k' = if k' = k then none else t.find k' := by
  apply Option.ext
  intro r'
  by_cases h : k' = k
  · simp [find_eq_some, erase, h]
  · simp [find_eq_some, erase, h]

@[simp] theorem find_erase_self (t : OrderedTable κ ρ) (k : κ) : (t.erase k).find k = none := by
  rw [find_erase, if_pos rfl]

theorem find_erase_of_ne (t : OrderedTable κ ρ) {k k' : κ} (h : k' ≠ k) :
    (t.erase k).find k' = t.find k' := by
  rw [find_erase, if_neg h]

/-- A row of a table where `k` has been written is the new one or one of before. -/
theorem exists_find_set {t : OrderedTable κ ρ} {k k' : κ} {r : ρ} {P : ρ → Prop} :
    (∃ r', (t.set k r).find k' = some r' ∧ P r') ↔
      k' = k ∧ P r ∨ k' ≠ k ∧ ∃ r', t.find k' = some r' ∧ P r' := by
  rw [find_set]
  by_cases hk : k' = k
  · simp [hk]
  · simp [hk]

theorem exists_find_erase {t : OrderedTable κ ρ} {k k' : κ} {P : ρ → Prop} :
    (∃ r', (t.erase k).find k' = some r' ∧ P r') ↔
      k' ≠ k ∧ ∃ r', t.find k' = some r' ∧ P r' := by
  rw [find_erase]
  by_cases hk : k' = k
  · simp [hk]
  · simp [hk]

/-- A table is determined by what is found in it. -/
theorem eq_of_find {t t' : OrderedTable κ ρ} (h : ∀ k, t.find k = t'.find k) : t = t' := by
  have hmem : ∀ p : κ × ρ, p ∈ t.rows ↔ p ∈ t'.rows := fun p => by
    rw [← find_eq_some (k := p.1), h, find_eq_some]
  have hperm : t.rows.Perm t'.rows := (List.perm_ext_iff_of_nodup
    (t.sorted.imp fun hlt heq => hlt.ne (congrArg Prod.fst heq))
    (t'.sorted.imp fun hlt heq => hlt.ne (congrArg Prod.fst heq))).mpr hmem
  have hrows : t.rows = t'.rows :=
    hperm.eq_of_pairwise (fun _ _ _ _ hab hba => absurd hba hab.asymm) t.sorted t'.sorted
  cases t
  cases t'
  cases hrows
  rfl

/-- Writing what is there. -/
theorem set_eq_self {t : OrderedTable κ ρ} {k : κ} {r : ρ} (h : t.find k = some r) :
    t.set k r = t := by
  refine eq_of_find fun k' => ?_
  rw [find_set]
  split
  · rename_i hk
    rw [hk, h]
  · rfl

/-- A row behind all others is written at the end. -/
theorem rows_set_of_lt {t : OrderedTable κ ρ} {k : κ} (h : ∀ k' r, t.find k' = some r → k' < k)
    (r : ρ) : (t.set k r).rows = t.rows ++ [(k, r)] := by
  have hlt : ∀ p ∈ t.rows, p.1 < k := fun p hp => h p.1 p.2 (find_eq_some.mpr hp)
  have hsorted : (t.rows ++ [(k, r)]).Pairwise fun a b => a.1 < b.1 :=
    List.pairwise_append.mpr ⟨t.sorted, List.pairwise_singleton _ _, fun p hp q hq =>
      List.mem_singleton.mp hq ▸ hlt p hp⟩
  have heq : t.set k r = ⟨t.rows ++ [(k, r)], hsorted⟩ := eq_of_find fun k' => by
    apply Option.ext
    intro r'
    rw [find_eq_some, find_eq_some, mem_rows_set]
    show _ ↔ (k', r') ∈ t.rows ++ [(k, r)]
    rw [List.mem_append, List.mem_singleton, Prod.mk.injEq]
    constructor
    · rintro (hnew | ⟨-, hold⟩)
      · exact .inr hnew
      · exact .inl hold
    · rintro (hold | hnew)
      · exact .inr ⟨(hlt _ hold).ne, hold⟩
      · exact .inl hnew
  rw [heq]

theorem find_modify (t : OrderedTable κ ρ) (k k' : κ) (f : ρ → ρ) :
    (t.modify k f).find k' = if k' = k then (t.find k).map f else t.find k' := by
  unfold modify
  cases h : t.find k with
  | none => by_cases hk : k' = k <;> simp [hk, h]
  | some r => simp [find_set]

theorem modify_eq_set {t : OrderedTable κ ρ} {k : κ} {r : ρ} (h : t.find k = some r)
    (f : ρ → ρ) : t.modify k f = t.set k (f r) := by
  simp [modify, h]

/-- A row found after one row was written or erased. -/
theorem find_set_or_erase {t : OrderedTable κ ρ} {k k' : κ} {r r' : ρ} {b : Bool}
    (h : (if b then t.erase k else t.set k r).find k' = some r') :
    (k' = k ∧ r' = r) ∨ t.find k' = some r' := by
  cases b with
  | true =>
      rw [if_pos rfl, find_erase] at h
      split at h
      · cases h
      · exact .inr h
  | false =>
      rw [if_neg Bool.false_ne_true, find_set] at h
      split at h
      · rename_i hk
        exact .inl ⟨hk, (Option.some.inj h).symm⟩
      · exact .inr h

/-! ### Weighted sums over all rows -/

section AddCommMonoid

variable [AddCommMonoid M]

/-- The sum of `f k r` over all rows `(k, r)`. -/
def sum (t : OrderedTable κ ρ) (f : κ → ρ → M) : M :=
  (t.rows.map fun p => f p.1 p.2).sum

@[simp] theorem sum_empty (f : κ → ρ → M) : (empty : OrderedTable κ ρ).sum f = 0 := rfl

theorem sum_congr {t : OrderedTable κ ρ} {f g : κ → ρ → M}
    (h : ∀ k r, t.find k = some r → f k r = g k r) : t.sum f = t.sum g := by
  unfold sum
  congr 1
  exact List.map_congr_left fun p hp => h p.1 p.2 (find_eq_some.mpr hp)

theorem sum_eq_zero {t : OrderedTable κ ρ} {f : κ → ρ → M}
    (h : ∀ k r, t.find k = some r → f k r = 0) : t.sum f = 0 := by
  rw [sum_congr h]
  simp [sum]

theorem sum_set (t : OrderedTable κ ρ) (k : κ) (r : ρ) (f : κ → ρ → M) :
    (t.set k r).sum f = f k r + (t.erase k).sum f := by
  have hperm := List.perm_orderedInsert (fun a b : κ × ρ => a.1 < b.1) (k, r) (t.erase k).rows
  exact (hperm.map fun p => f p.1 p.2).sum_eq

private theorem sum_filter_split (k : κ) (f : κ → ρ → M) (l : List (κ × ρ))
    (hl : l.Pairwise (fun a b => a.1 < b.1)) :
    (l.map fun p => f p.1 p.2).sum =
      ((l.find? (fun p => p.1 = k)).map Prod.snd).elim 0 (f k) +
        ((l.filter (fun p => p.1 ≠ k)).map fun p => f p.1 p.2).sum := by
  induction l with
  | nil => simp
  | cons p l ih =>
      obtain ⟨hp, hl⟩ := List.pairwise_cons.mp hl
      by_cases hk : p.1 = k
      · subst hk
        have hne : ∀ q ∈ l, decide (q.1 ≠ p.1) = true := fun q hq =>
          decide_eq_true (hp q hq).ne'
        rw [List.filter_cons_of_neg (by simp), List.filter_eq_self.mpr hne]
        simp
      · have hsplit := ih hl
        simp only [List.map_cons, List.sum_cons, hsplit, List.find?_cons, hk, decide_false,
          ne_eq, not_false_eq_true, decide_true, List.filter_cons_of_pos]
        exact add_left_comm _ _ _

theorem sum_eq_erase (t : OrderedTable κ ρ) (k : κ) (f : κ → ρ → M) :
    t.sum f = (t.find k).elim 0 (f k) + (t.erase k).sum f :=
  sum_filter_split k f t.rows t.sorted

end AddCommMonoid

section AddCommGroup

variable [AddCommGroup M]

/-- Writing a row changes a sum by the new contribution minus the old one. -/
theorem sum_set_sub (t : OrderedTable κ ρ) (k : κ) (r : ρ) (f : κ → ρ → M) :
    (t.set k r).sum f = t.sum f + (f k r - (t.find k).elim 0 (f k)) := by
  rw [sum_set, sum_eq_erase t k f]
  abel

theorem sum_erase_sub (t : OrderedTable κ ρ) (k : κ) (f : κ → ρ → M) :
    (t.erase k).sum f = t.sum f - (t.find k).elim 0 (f k) := by
  rw [sum_eq_erase t k f]
  abel

end AddCommGroup

/-! ### Adjusting one row -/

section Adjusted

variable {N : Type*} [AddCommGroup M] [AddCommGroup N]

theorem erase_set (t : OrderedTable κ ρ) (k : κ) (r : ρ) :
    (t.set k r).erase k = t.erase k := by
  have hrows : ((t.erase k).rows.orderedInsert (fun a b => a.1 < b.1) (k, r)).filter
      (fun p => p.1 ≠ k) = (t.erase k).rows := by
    have hne : ∀ p ∈ (t.erase k).rows, decide (p.1 ≠ k) = true := fun p hp =>
      (List.mem_filter.mp hp).2
    rw [List.orderedInsert_eq_take_drop, List.filter_append, List.filter_cons_of_neg (by simp),
      ← List.filter_append, List.takeWhile_append_dropWhile, List.filter_eq_self.mpr hne]
  exact OrderedTable.mk.injEq .. |>.mpr hrows

theorem erase_erase (t : OrderedTable κ ρ) (k : κ) : (t.erase k).erase k = t.erase k := by
  simp [erase, List.filter_filter]

/-- `t'` is `t` except that the value `w` of the row of `k` has grown by `d`;
a row that is not there has the value `0`. -/
structure Adjusted (t t' : OrderedTable κ ρ) (k : κ) (w : ρ → M) (d : M) : Prop where
  off : t'.erase k = t.erase k
  at_key : (t'.find k).elim 0 w = (t.find k).elim 0 w + d

namespace Adjusted

variable {t t' : OrderedTable κ ρ} {k : κ} {w : ρ → M} {d : M}

theorem refl (t : OrderedTable κ ρ) (k : κ) (w : ρ → M) : Adjusted t t k w 0 :=
  ⟨rfl, (add_zero _).symm⟩

theorem set {r : ρ} (h : w r = (t.find k).elim 0 w + d) : Adjusted t (t.set k r) k w d :=
  ⟨erase_set t k r, by rw [find_set_self, Option.elim_some, h]⟩

theorem erase (h : (t.find k).elim 0 w + d = 0) : Adjusted t (t.erase k) k w d :=
  ⟨erase_erase t k, by rw [find_erase_self, Option.elim_none, h]⟩

/-- A row is written, or erased when nothing is left of its value. -/
theorem set_or_erase {r : ρ} {b : Bool} (h : w r = (t.find k).elim 0 w + d)
    (hb : b = true → w r = 0) : Adjusted t (if b then t.erase k else t.set k r) k w d := by
  cases b with
  | true => exact erase (h ▸ hb rfl)
  | false => exact set h

theorem find_of_ne (h : Adjusted t t' k w d) {k' : κ} (hk : k' ≠ k) :
    t'.find k' = t.find k' := by
  rw [← find_erase_of_ne t' hk, h.off, find_erase_of_ne t hk]

theorem value (h : Adjusted t t' k w d) (k' : κ) :
    (t'.find k').elim 0 w = (t.find k').elim 0 w + if k' = k then d else 0 := by
  by_cases hk : k' = k
  · rw [hk, h.at_key, if_pos rfl]
  · rw [h.find_of_ne hk, if_neg hk, add_zero]

/-- Every sum that is additive in the value changes by what `d` contributes. -/
theorem sum (h : Adjusted t t' k w d) {f : κ → M → N}
    (hf : ∀ k x y, f k (x + y) = f k x + f k y) :
    (t'.sum fun k r => f k (w r)) = (t.sum fun k r => f k (w r)) + f k d := by
  have hzero : f k 0 = 0 := by simpa using hf k 0 0
  have helim : ∀ o : Option ρ, o.elim 0 (fun r => f k (w r)) = f k (o.elim 0 w) := fun o => by
    cases o with
    | none => exact hzero.symm
    | some r => rfl
  rw [sum_eq_erase t' k, sum_eq_erase t k, h.off, helim, helim, h.at_key, hf]
  abel

end Adjusted

end Adjusted

section Ordered

variable [AddCommMonoid M] [PartialOrder M] [IsOrderedAddMonoid M]

theorem sum_nonneg {t : OrderedTable κ ρ} {f : κ → ρ → M}
    (h : ∀ k r, t.find k = some r → 0 ≤ f k r) : 0 ≤ t.sum f := by
  apply List.sum_nonneg
  simp only [List.mem_map]
  rintro _ ⟨p, hp, rfl⟩
  exact h p.1 p.2 (find_eq_some.mpr hp)

theorem sum_le_sum {t : OrderedTable κ ρ} {f g : κ → ρ → M}
    (h : ∀ k r, t.find k = some r → f k r ≤ g k r) : t.sum f ≤ t.sum g :=
  List.sum_le_sum fun p hp => h p.1 p.2 (find_eq_some.mpr hp)

/-- One row is at most the sum, when no row is negative. -/
theorem le_sum {t : OrderedTable κ ρ} {f : κ → ρ → M} {k : κ} {r : ρ}
    (h : ∀ k r, t.find k = some r → 0 ≤ f k r) (hk : t.find k = some r) :
    f k r ≤ t.sum f := by
  have hrest : 0 ≤ (t.erase k).sum f := by
    refine sum_nonneg fun k' r' hr' => h k' r' ?_
    rw [find_erase] at hr'
    split at hr'
    · cases hr'
    · exact hr'
  rw [sum_eq_erase t k f, hk]
  simpa using le_add_of_nonneg_right hrest

/-- A sum over distinct keys of a table is at most the sum over all its keys. -/
theorem sum_le_of_nodup {t : OrderedTable κ ρ} {l : List κ} (hl : l.Nodup)
    (hmem : ∀ k ∈ l, (t.find k).isSome) {f : κ → M} (hf : ∀ k, 0 ≤ f k) :
    (l.map f).sum ≤ t.sum fun k _ => f k := by
  have hsub : l ⊆ t.keys := fun k hk => mem_keys.mpr (Option.isSome_iff_exists.mp (hmem k hk))
  obtain ⟨l', hperm, hsublist⟩ := List.Nodup.subperm hl hsub
  have hkeys : (t.sum fun k _ => f k) = (t.keys.map f).sum := by
    rw [sum, keys, List.map_map]
    rfl
  rw [hkeys, ← (hperm.map f).sum_eq]
  refine (hsublist.map f).sum_le_sum fun x hx => ?_
  obtain ⟨k, -, rfl⟩ := List.mem_map.mp hx
  exact hf k

end Ordered

/-! ### Iteration through a secondary index -/

section Index

variable {ι : Type*} [LinearOrder ι]

/-- The rows in increasing order of a secondary key, rows with equal secondary
keys in increasing order of their primary keys. -/
def index (t : OrderedTable κ ρ) (key : ρ → ι) : List (κ × ρ) :=
  t.rows.insertionSort fun a b => toLex (key a.2, a.1) ≤ toLex (key b.2, b.1)

theorem mem_index {t : OrderedTable κ ρ} {key : ρ → ι} {p : κ × ρ} :
    p ∈ t.index key ↔ t.find p.1 = some p.2 := by
  rw [index, List.mem_insertionSort, find_eq_some]

theorem index_sorted (t : OrderedTable κ ρ) (key : ρ → ι) :
    (t.index key).Pairwise fun a b => toLex (key a.2, a.1) ≤ toLex (key b.2, b.1) :=
  List.pairwise_insertionSort _ _

theorem index_perm (t : OrderedTable κ ρ) (key : ρ → ι) : (t.index key).Perm t.rows :=
  List.perm_insertionSort _ _

/-- No two rows have the same place in the index. -/
theorem index_strict (t : OrderedTable κ ρ) (key : ρ → ι) :
    (t.index key).Pairwise fun a b => toLex (key a.2, a.1) < toLex (key b.2, b.1) := by
  have hne : (t.index key).Pairwise fun a b => a.1 ≠ b.1 :=
    ((index_perm t key).pairwise_iff fun h => h.symm).mpr (t.sorted.imp fun h => h.ne)
  refine (index_sorted t key).imp₂ (fun {a b} hle hab => lt_of_le_of_ne hle fun heq => hab ?_) hne
  exact congrArg Prod.snd (toLex.injective heq)

/-- The index starts with the row of the least secondary key. -/
theorem index_head {t : OrderedTable κ ρ} {key : ρ → ι} {p q : κ × ρ} {l : List (κ × ρ)}
    (h : t.index key = p :: l) (hq : t.find q.1 = some q.2) :
    toLex (key p.2, p.1) ≤ toLex (key q.2, q.1) := by
  have hsorted := index_sorted t key
  rw [h, List.pairwise_cons] at hsorted
  have hmem : q ∈ t.index key := mem_index.mpr hq
  rw [h] at hmem
  rcases List.mem_cons.mp hmem with rfl | hmem
  · exact le_refl _
  · exact hsorted.1 q hmem

end Index

/-! ### Searching along an order -/

section Search

variable {ι : Type*} [LinearOrder ι]

/-- The first row, in key order, whose key satisfies `p`. -/
def first (t : OrderedTable κ ρ) (p : κ → Bool) : Option (κ × ρ) := t.rows.find? fun q => p q.1

/-- The last row, in key order, whose key satisfies `p`. -/
def last (t : OrderedTable κ ρ) (p : κ → Bool) : Option (κ × ρ) :=
  t.rows.reverse.find? fun q => p q.1

/-- The first row, in the order of a secondary key, whose pair of secondary and
primary key satisfies `p`. -/
def firstBy (t : OrderedTable κ ρ) (key : ρ → ι) (p : ι ×ₗ κ → Bool) : Option (κ × ρ) :=
  (t.index key).find? fun q => p (toLex (key q.2, q.1))

def lastBy (t : OrderedTable κ ρ) (key : ρ → ι) (p : ι ×ₗ κ → Bool) : Option (κ × ρ) :=
  (t.index key).reverse.find? fun q => p (toLex (key q.2, q.1))

theorem find_of_first {t : OrderedTable κ ρ} {p : κ → Bool} {q : κ × ρ} (h : t.first p = some q) :
    t.find q.1 = some q.2 :=
  find_eq_some.mpr (List.mem_of_find?_eq_some h)

theorem find_of_last {t : OrderedTable κ ρ} {p : κ → Bool} {q : κ × ρ} (h : t.last p = some q) :
    t.find q.1 = some q.2 :=
  find_eq_some.mpr (List.mem_reverse.mp (List.mem_of_find?_eq_some h))

theorem pos_of_last {t : OrderedTable κ ρ} {p : κ → Bool} {q : κ × ρ} (h : t.last p = some q) :
    p q.1 = true := by
  have hpos := List.find?_some (p := fun q : κ × ρ => p q.1) h
  exact hpos

theorem find_of_firstBy {t : OrderedTable κ ρ} {key : ρ → ι} {p : ι ×ₗ κ → Bool} {q : κ × ρ}
    (h : t.firstBy key p = some q) : t.find q.1 = some q.2 :=
  mem_index.mp (List.mem_of_find?_eq_some h)

theorem find_of_lastBy {t : OrderedTable κ ρ} {key : ρ → ι} {p : ι ×ₗ κ → Bool} {q : κ × ρ}
    (h : t.lastBy key p = some q) : t.find q.1 = some q.2 :=
  mem_index.mp (List.mem_reverse.mp (List.mem_of_find?_eq_some h))

private theorem find?_eq_filter {α : Type*} (f : α → ι) (s : ι) {l : List α}
    (hl : l.Pairwise fun a b => f a ≤ f b) :
    l.find? (fun a => f a = s) = (l.find? fun a => s ≤ f a).filter fun a => f a = s := by
  induction l with
  | nil => rfl
  | cons a l ih =>
      obtain ⟨ha, hl⟩ := List.pairwise_cons.mp hl
      rcases lt_trichotomy (f a) s with hlt | rfl | hgt
      · rw [List.find?_cons_of_neg (by simpa using hlt.ne),
          List.find?_cons_of_neg (by simpa using hlt), ih hl]
      · rw [List.find?_cons_of_pos (by simp), List.find?_cons_of_pos (by simp),
          Option.filter_some, if_pos (decide_eq_true rfl)]
      · have hnone : l.find? (fun b => f b = s) = none := by
          refine List.find?_eq_none.mpr fun b hb => ?_
          simpa using (hgt.trans_le (ha b hb)).ne'
        rw [List.find?_cons_of_neg (by simpa using hgt.ne'),
          List.find?_cons_of_pos (by simpa using hgt.le), hnone, Option.filter_some,
          if_neg (by simpa using hgt.ne')]

/-- The first row with a secondary key is the first row not below it, or there
is none. -/
theorem firstBy_eq_filter (t : OrderedTable κ ρ) (key : ρ → ι) (s : ι) :
    t.firstBy key (fun q => (ofLex q).1 = s) =
      (t.firstBy key fun q => s ≤ (ofLex q).1).filter fun q => key q.2 = s := by
  refine find?_eq_filter (fun q : κ × ρ => key q.2) s ((index_sorted t key).imp fun {a b} h => ?_)
  exact (Prod.Lex.toLex_le_toLex.mp h).elim le_of_lt fun h => h.1.le

theorem exists_first {t : OrderedTable κ ρ} (h : t.rows ≠ []) :
    ∃ q, t.first (fun _ => true) = some q := by
  obtain ⟨q, l, hrows⟩ := List.exists_cons_of_ne_nil h
  exact ⟨q, by rw [first, hrows, List.find?_cons_of_pos rfl]⟩

/-- The last row with a key that satisfies `p` has the greatest such key. -/
theorem le_of_last_of {t : OrderedTable κ ρ} {p : κ → Bool} {q : κ × ρ} (h : t.last p = some q)
    {k : κ} {r : ρ} (hk : t.find k = some r) (hp : p k = true) : k ≤ q.1 := by
  obtain ⟨-, l, l', hsplit, hbefore⟩ := List.find?_eq_some_iff_append.mp h
  have hmem : (k, r) ∈ t.rows.reverse := List.mem_reverse.mpr (find_eq_some.mp hk)
  have hsorted : t.rows.reverse.Pairwise fun a b => b.1 < a.1 := List.pairwise_reverse.mpr t.sorted
  rw [hsplit] at hmem hsorted
  obtain hmem | hmem := List.mem_append.mp hmem
  · have hneg := hbefore _ hmem
    rw [hp] at hneg
    cases hneg
  · obtain heq | hmem := List.mem_cons.mp hmem
    · exact le_of_eq (congrArg Prod.fst heq)
    · exact ((List.pairwise_cons.mp (List.pairwise_append.mp hsorted).2.1).1 _ hmem).le

/-- The first row with a key that satisfies `p` has the least such key. -/
theorem le_of_first_of {t : OrderedTable κ ρ} {p : κ → Bool} {q : κ × ρ} (h : t.first p = some q)
    {k : κ} {r : ρ} (hk : t.find k = some r) (hp : p k = true) : q.1 ≤ k := by
  obtain ⟨-, l, l', hsplit, hbefore⟩ := List.find?_eq_some_iff_append.mp h
  have hmem : (k, r) ∈ t.rows := find_eq_some.mp hk
  have hsorted := t.sorted
  rw [hsplit] at hmem hsorted
  obtain hmem | hmem := List.mem_append.mp hmem
  · have hneg := hbefore _ hmem
    rw [hp] at hneg
    cases hneg
  · obtain heq | hmem := List.mem_cons.mp hmem
    · exact le_of_eq (congrArg Prod.fst heq).symm
    · exact ((List.pairwise_cons.mp (List.pairwise_append.mp hsorted).2.1).1 _ hmem).le

theorem not_of_last_eq_none {t : OrderedTable κ ρ} {p : κ → Bool} (h : t.last p = none) {k : κ}
    {r : ρ} (hk : t.find k = some r) : ¬ p k = true := fun hp =>
  List.find?_eq_none.mp h (k, r) (List.mem_reverse.mpr (find_eq_some.mp hk)) hp

/-- The last of all rows has the greatest key. -/
theorem le_of_last {t : OrderedTable κ ρ} {q : κ × ρ} (h : t.last (fun _ => true) = some q)
    {k : κ} {r : ρ} (hk : t.find k = some r) : k ≤ q.1 :=
  le_of_last_of h hk rfl

theorem last_eq_none {t : OrderedTable κ ρ} (h : t.last (fun _ => true) = none) (k : κ) :
    t.find k = none := by
  have hall := List.find?_eq_none.mp h
  exact find_eq_none.mpr fun r hr => hall (k, r) (List.mem_reverse.mpr hr) rfl

end Search

/-! ### The same keys with other rows -/

section MapRows

variable {ρ' ι : Type*} [LinearOrder ι]

def mapRows (f : ρ → ρ') (t : OrderedTable κ ρ) : OrderedTable κ ρ' where
  rows := t.rows.map fun p => (p.1, f p.2)
  sorted := List.pairwise_map.mpr t.sorted

@[simp] theorem find_mapRows (f : ρ → ρ') (t : OrderedTable κ ρ) (k : κ) :
    (t.mapRows f).find k = (t.find k).map f := by
  simp only [find, mapRows, List.find?_map, Option.map_map]
  rfl

@[simp] theorem mapRows_empty (f : ρ → ρ') : (empty : OrderedTable κ ρ).mapRows f = empty := rfl

theorem mapRows_erase (f : ρ → ρ') (t : OrderedTable κ ρ) (k : κ) :
    (t.erase k).mapRows f = (t.mapRows f).erase k := by
  simp only [erase, mapRows, List.filter_map]
  rfl

theorem mapRows_set (f : ρ → ρ') (t : OrderedTable κ ρ) (k : κ) (r : ρ) :
    (t.set k r).mapRows f = (t.mapRows f).set k (f r) := by
  have hrows : ((t.erase k).rows.orderedInsert (fun a b => a.1 < b.1) (k, r)).map
      (fun p => (p.1, f p.2)) = ((t.erase k).rows.map fun p => (p.1, f p.2)).orderedInsert
        (fun a b => a.1 < b.1) (k, f r) :=
    List.map_orderedInsert _ _ _ _ _ (fun _ _ => Iff.rfl) fun _ _ => Iff.rfl
  have herase : ((t.mapRows f).erase k).rows = (t.erase k).rows.map fun p => (p.1, f p.2) := by
    rw [← mapRows_erase]
    rfl
  refine OrderedTable.mk.injEq .. |>.mpr (hrows.trans ?_)
  rw [← herase]

theorem first_mapRows (f : ρ → ρ') (t : OrderedTable κ ρ) (p : κ → Bool) :
    (t.mapRows f).first p = (t.first p).map fun q => (q.1, f q.2) := by
  simp only [first, mapRows, List.find?_map]
  rfl

theorem last_mapRows (f : ρ → ρ') (t : OrderedTable κ ρ) (p : κ → Bool) :
    (t.mapRows f).last p = (t.last p).map fun q => (q.1, f q.2) := by
  simp only [last, mapRows, ← List.map_reverse, List.find?_map]
  rfl

theorem index_mapRows (t : OrderedTable κ ρ) (key : ρ → ι) :
    (t.mapRows key).index id = (t.index key).map fun q => (q.1, key q.2) := by
  have hsort : (t.rows.insertionSort fun a b => toLex (key a.2, a.1) ≤ toLex (key b.2, b.1)).map
      (fun q => (q.1, key q.2)) = (t.rows.map fun q => (q.1, key q.2)).insertionSort
        fun a b => toLex (a.2, a.1) ≤ toLex (b.2, b.1) :=
    List.map_insertionSort _ _ _ _ fun _ _ _ _ => Iff.rfl
  exact hsort.symm

theorem firstBy_mapRows (t : OrderedTable κ ρ) (key : ρ → ι) (p : ι ×ₗ κ → Bool) :
    (t.mapRows key).firstBy id p = (t.firstBy key p).map fun q => (q.1, key q.2) := by
  simp only [firstBy, index_mapRows, List.find?_map]
  rfl

theorem lastBy_mapRows (t : OrderedTable κ ρ) (key : ρ → ι) (p : ι ×ₗ κ → Bool) :
    (t.mapRows key).lastBy id p = (t.lastBy key p).map fun q => (q.1, key q.2) := by
  simp only [lastBy, index_mapRows, ← List.map_reverse, List.find?_map]
  rfl

end MapRows

end OrderedTable
