import Mathlib.Data.List.Basic
import Mathlib.Data.List.Pairwise
import Mathlib.Tactic.Common

/-!
A container whose rows are unique by two keys.  A row is inserted only if neither of its keys
is taken, and a row that is modified is erased if it then has a key of another row.  Rows are
found by the first key; the order in which they are kept is not looked at.
-/

/-- No two rows have a key in common. -/
structure UniqueIndex {α κ κ' : Type*} (key : α → κ) (key' : α → κ') where
  rows : List α
  unique : rows.Pairwise fun a b => key a ≠ key b ∧ key' a ≠ key' b

namespace UniqueIndex

variable {α κ κ' : Type*} {key : α → κ} {key' : α → κ'}

def empty : UniqueIndex key key' := ⟨[], List.Pairwise.nil⟩

/-- A row has one of the keys of `a`. -/
def Taken (t : UniqueIndex key key') (a : α) : Prop :=
  ∃ b ∈ t.rows, key b = key a ∨ key' b = key' a

variable {t : UniqueIndex key key'} {a b : α} {k : κ}

theorem ne_of_not_taken (h : ¬ t.Taken a) (hb : b ∈ t.rows) : key b ≠ key a ∧ key' b ≠ key' a :=
  ⟨fun heq => h ⟨b, hb, .inl heq⟩, fun heq => h ⟨b, hb, .inr heq⟩⟩

theorem ne_of_mem (ha : a ∈ t.rows) (hb : b ∈ t.rows) (hne : a ≠ b) :
    key a ≠ key b ∧ key' a ≠ key' b := by
  have hsymm : Std.Symm fun a b => key a ≠ key b ∧ key' a ≠ key' b :=
    ⟨fun _ _ h => ⟨h.1.symm, h.2.symm⟩⟩
  exact t.unique.forall ha hb hne

/-! ### Finding a row -/

section Find

variable [DecidableEq κ]

def find (t : UniqueIndex key key') (k : κ) : Option α := t.rows.find? fun a => key a = k

def erase (t : UniqueIndex key key') (k : κ) : UniqueIndex key key' :=
  ⟨t.rows.filter fun a => key a ≠ k, t.unique.filter _⟩

theorem find_eq_none : t.find k = none ↔ ∀ a ∈ t.rows, key a ≠ k := by
  simp [find, List.find?_eq_none]

theorem find_eq_some : t.find k = some a ↔ a ∈ t.rows ∧ key a = k := by
  have hsome : ∀ {k a}, t.find k = some a → a ∈ t.rows ∧ key a = k := by
    intro k a h
    have hkey := List.find?_some (p := fun a => decide (key a = k)) h
    exact ⟨List.mem_of_find?_eq_some h, of_decide_eq_true hkey⟩
  refine ⟨hsome, ?_⟩
  rintro ⟨ha, rfl⟩
  cases hfind : t.find (key a) with
  | none => exact absurd rfl (find_eq_none.mp hfind a ha)
  | some b =>
      obtain ⟨hb, hkey⟩ := hsome hfind
      by_contra hne
      exact (ne_of_mem hb ha fun heq => hne (congrArg some heq)).1 hkey

@[simp] theorem find_empty (k : κ) : (empty : UniqueIndex key key').find k = none := rfl

theorem find_erase_of_ne {k' : κ} (hk : k' ≠ k) : (t.erase k).find k' = t.find k' := by
  rw [find, find, erase, List.find?_filter]
  refine congrArg (List.find? · t.rows) (funext fun a => ?_)
  by_cases ha : key a = k'
  · simp [ha, hk]
  · simp [ha]

end Find

/-! ### Writing a row -/

variable [DecidableEq κ] [DecidableEq κ']

instance (t : UniqueIndex key key') (a : α) : Decidable (t.Taken a) :=
  inferInstanceAs (Decidable (∃ b ∈ _, _))

/-- A row with a key that is taken is not inserted. -/
def insert (t : UniqueIndex key key') (a : α) : UniqueIndex key key' :=
  if h : t.Taken a then t
  else ⟨t.rows ++ [a], List.pairwise_append.mpr ⟨t.unique, List.pairwise_singleton _ a,
    fun _ hb _ ha => by rw [List.mem_singleton.mp ha]; exact ne_of_not_taken h hb⟩⟩

/-- The row with the key is changed, or erased if another one has a key of what it becomes. -/
def modify (t : UniqueIndex key key') (k : κ) (f : α → α) : UniqueIndex key key' :=
  (t.find k).elim t fun a => (t.erase k).insert (f a)

theorem insert_of_taken (h : t.Taken a) : t.insert a = t := dif_pos h

theorem rows_insert (h : ¬ t.Taken a) : (t.insert a).rows = t.rows ++ [a] := by
  rw [insert, dif_neg h]

theorem find_insert_self (h : ¬ t.Taken a) : (t.insert a).find (key a) = some a := by
  rw [find_eq_some, rows_insert h]
  exact ⟨List.mem_append_right _ List.mem_cons_self, rfl⟩

theorem find_insert_of_ne (hk : key a ≠ k) : (t.insert a).find k = t.find k := by
  by_cases h : t.Taken a
  · rw [insert_of_taken h]
  · unfold find
    rw [rows_insert h, List.find?_append, List.find?_cons_of_neg (by simpa using hk)]
    exact Option.or_none

theorem modify_of_find (h : t.find k = some a) (f : α → α) :
    t.modify k f = (t.erase k).insert (f a) := by
  rw [modify, h]
  rfl

/-- A row that is found after a change is what has become of the one that was there. -/
theorem find_of_find_modify {f : α → α} (h : (t.modify k f).find k = some b) :
    ∃ a, t.find k = some a ∧ b = f a := by
  cases hfind : t.find k with
  | none =>
      rw [modify, hfind, Option.elim_none] at h
      cases hfind.symm.trans h
  | some a =>
      refine ⟨a, rfl, ?_⟩
      rw [modify_of_find hfind] at h
      obtain ⟨hb, hbk⟩ := find_eq_some.mp h
      have hnone : b ∉ (t.erase k).rows := fun hmem =>
        of_decide_eq_true (List.mem_filter.mp hmem).2 hbk
      by_cases htaken : (t.erase k).Taken (f a)
      · rw [insert_of_taken htaken] at hb
        exact absurd hb hnone
      · rw [rows_insert htaken, List.mem_append, List.mem_singleton] at hb
        exact hb.resolve_left hnone

section Modify

variable {f : α → α} (hf : ∀ a, key (f a) = key a)

include hf

theorem find_modify_of_ne {k' : κ} (hk : k' ≠ k) : (t.modify k f).find k' = t.find k' := by
  cases hfind : t.find k with
  | none => rw [modify, hfind, Option.elim_none]
  | some a =>
      have hkey := (find_eq_some.mp hfind).2
      rw [modify_of_find hfind, find_insert_of_ne (by rw [hf, hkey]; exact hk.symm),
        find_erase_of_ne hk]

/-- The change is made if no other row has the second key of what the row becomes. -/
theorem find_modify_self (hfind : t.find k = some a)
    (hfree : ∀ b ∈ t.rows, key b ≠ k → key' b ≠ key' (f a)) :
    (t.modify k f).find k = some (f a) := by
  have hkey : key (f a) = k := (hf a).trans (find_eq_some.mp hfind).2
  have hnot : ¬ (t.erase k).Taken (f a) := by
    rintro ⟨b, hb, hsame⟩
    obtain ⟨hmem, hne⟩ := List.mem_filter.mp hb
    have hother : key b ≠ k := of_decide_eq_true hne
    rcases hsame with hsame | hsame
    · exact hother (hsame.trans hkey)
    · exact hfree b hmem hother hsame
  have hinsert := find_insert_self hnot
  rw [hkey] at hinsert
  rw [modify_of_find hfind]
  exact hinsert

/-- A change of neither key is made. -/
theorem find_modify_of_same (hfind : t.find k = some a) (hf' : key' (f a) = key' a) :
    (t.modify k f).find k = some (f a) := by
  obtain ⟨ha, rfl⟩ := find_eq_some.mp hfind
  refine find_modify_self hf hfind fun b hb hne => ?_
  rw [hf']
  exact (ne_of_mem hb ha fun heq => hne (congrArg key heq)).2

end Modify

end UniqueIndex
