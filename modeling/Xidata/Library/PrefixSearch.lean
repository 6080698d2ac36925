import Mathlib.Data.Fin.Basic
import Mathlib.Data.List.Lex
import Xidata.Library.IndexRead

/-!
Looking for a prefix in an ordered list.  Words in lexicographic order that share a prefix
lie next to each other, and the prefix itself, filled up with the least letter, lies before
them.  So the first word that is not below the filled prefix has the prefix if there is any
word that has it.
-/

namespace PrefixSearch

/-! ### Rows from a bound on -/

section Rows

variable {κ ρ : Type*} [LinearOrder κ] {key : ρ → κ} {rows : List ρ} {bound : κ}

/-- The rows from the first one on whose key is not below the bound. -/
def lowerBound (key : ρ → κ) (bound : κ) (rows : List ρ) : List ρ :=
  rows.drop (IndexRead.lowerBound (fun r => key r < bound) rows)

theorem lowerBound_eq_filter (hsorted : rows.Pairwise fun a b => key a ≤ key b) :
    lowerBound key bound rows = rows.filter fun r => bound ≤ key r := by
  have hordered : IndexRead.Ordered (fun r => key r < bound) rows :=
    hsorted.imp fun hle hlt => by
      rw [decide_eq_true_eq] at hlt ⊢
      exact hle.trans_lt hlt
  rw [lowerBound, IndexRead.drop_lowerBound hordered]
  simp only [← not_lt, decide_not]

/-- The first row from the bound on has the least key of those that are not below it. -/
theorem head_lowerBound (hsorted : rows.Pairwise fun a b => key a ≤ key b) {r : ρ}
    {rest : List ρ} (h : lowerBound key bound rows = r :: rest) :
    r ∈ rows ∧ bound ≤ key r ∧ ∀ r' ∈ rows, bound ≤ key r' → key r ≤ key r' := by
  rw [lowerBound_eq_filter hsorted] at h
  have hfrom := hsorted.filter fun r => bound ≤ key r
  have hmem : ∀ r', r' ∈ r :: rest ↔ r' ∈ rows ∧ bound ≤ key r' := fun r' => by
    rw [← h, List.mem_filter, decide_eq_true_eq]
  rw [h] at hfrom
  obtain ⟨hrow, hbound⟩ := (hmem r).mp List.mem_cons_self
  refine ⟨hrow, hbound, fun r' hr' hle => ?_⟩
  obtain rfl | hr' := List.mem_cons.mp ((hmem r').mpr ⟨hr', hle⟩)
  · exact le_rfl
  · exact (List.pairwise_cons.mp hfrom).1 r' hr'

theorem lowerBound_eq_nil_iff (hsorted : rows.Pairwise fun a b => key a ≤ key b) :
    lowerBound key bound rows = [] ↔ ∀ r ∈ rows, key r < bound := by
  rw [lowerBound_eq_filter hsorted]
  simp [List.filter_eq_nil_iff]

/-- From the first row of a key on, the rows with this key are all rows with this key. -/
theorem takeWhile_eq_filter (hsorted : rows.Pairwise fun a b => key a ≤ key b) {k : κ}
    (hleast : ∀ r ∈ rows, k ≤ key r) :
    rows.takeWhile (fun r => key r = k) = rows.filter fun r => key r = k := by
  induction rows with
  | nil => rfl
  | cons a rows ih =>
      obtain ⟨ha, hrows⟩ := List.pairwise_cons.mp hsorted
      have hrest : ∀ r ∈ rows, k ≤ key r := fun r hr => hleast r (List.mem_cons_of_mem a hr)
      by_cases hk : key a = k
      · rw [List.takeWhile_cons, List.filter_cons, decide_eq_true hk, if_pos rfl]
        exact congrArg (a :: ·) (ih hrows hrest)
      · have hlt : k < key a := lt_of_le_of_ne (hleast a List.mem_cons_self) (Ne.symm hk)
        have hnone : rows.filter (fun r => key r = k) = [] := by
          rw [List.filter_eq_nil_iff]
          intro r hr
          simpa using (hlt.trans_le (ha r hr)).ne'
        rw [List.takeWhile_cons, List.filter_cons, decide_eq_false hk, if_neg Bool.false_ne_true,
          if_neg Bool.false_ne_true, hnone]

/-- The walk from the bound on, as long as the key is that of its first row, meets all rows
with this key. -/
theorem takeWhile_lowerBound (hsorted : rows.Pairwise fun a b => key a ≤ key b) {r : ρ}
    {rest : List ρ} (h : lowerBound key bound rows = r :: rest) :
    (lowerBound key bound rows).takeWhile (fun r' => key r' = key r) =
      rows.filter fun r' => key r' = key r := by
  obtain ⟨-, hbound, hleast⟩ := head_lowerBound hsorted h
  rw [lowerBound_eq_filter hsorted, takeWhile_eq_filter (hsorted.filter _), List.filter_filter]
  · apply List.filter_congr
    intro r' _
    by_cases hkey : key r' = key r
    · simp [hkey, hbound]
    · simp [hkey]
  · intro r' hr'
    obtain ⟨hrow, hle⟩ := List.mem_filter.mp hr'
    exact hleast r' hrow (of_decide_eq_true hle)

end Rows

/-! ### Words -/

section Words

variable {α β : Type*} [LinearOrder α] [LinearOrder β]

theorem cons_le_cons_iff {x y : α} {l m : List α} : x :: l ≤ y :: m ↔ x < y ∨ x = y ∧ l ≤ m := by
  rw [← not_lt, List.cons_lt_cons_iff, not_or, not_lt, not_and, not_lt]
  constructor
  · rintro ⟨hle, htail⟩
    obtain hlt | rfl := hle.lt_or_eq
    · exact .inl hlt
    · exact .inr ⟨rfl, htail rfl⟩
  · rintro (hlt | ⟨rfl, htail⟩)
    · exact ⟨hlt.le, fun heq => absurd heq hlt.ne'⟩
    · exact ⟨le_rfl, fun _ => htail⟩

/-- A word between two words with a prefix has it too. -/
theorem prefix_of_between {s a b c : List α} (hab : a ≤ b) (hbc : b ≤ c) (ha : s <+: a)
    (hc : s <+: c) : s <+: b := by
  induction s generalizing a b c with
  | nil => exact List.nil_prefix
  | cons x s ih =>
      obtain ⟨a', rfl, ha'⟩ := List.cons_prefix_iff.mp ha
      obtain ⟨c', rfl, hc'⟩ := List.cons_prefix_iff.mp hc
      cases b with
      | nil => exact absurd hab (not_le.mpr (List.nil_lt_cons x a'))
      | cons y b =>
          rw [cons_le_cons_iff] at hab hbc
          obtain hxy | ⟨rfl, hab⟩ := hab
          · obtain hyx | ⟨rfl, -⟩ := hbc
            · exact absurd hyx hxy.asymm
            · exact absurd hxy (lt_irrefl y)
          · obtain hlt | ⟨-, hbc⟩ := hbc
            · exact absurd hlt (lt_irrefl x)
            · exact List.cons_prefix_cons.mpr ⟨rfl, ih hab hbc ha' hc'⟩

section Pad

variable {least : α}

/-- A prefix filled up with the least letter to a length. -/
def pad (least : α) (n : ℕ) (s : List α) : List α := s ++ List.replicate (n - s.length) least

theorem replicate_le (hleast : ∀ a, least ≤ a) (l : List α) :
    List.replicate l.length least ≤ l := by
  induction l with
  | nil => exact le_rfl
  | cons a l ih =>
      rw [List.length_cons, List.replicate_succ, cons_le_cons_iff]
      obtain hlt | heq := (hleast a).lt_or_eq
      · exact .inl hlt
      · exact .inr ⟨heq, ih⟩

/-- The filled prefix lies before the words that have the prefix. -/
theorem pad_le (hleast : ∀ a, least ≤ a) {s d : List α} (h : s <+: d) :
    pad least d.length s ≤ d := by
  obtain ⟨t, rfl⟩ := h
  rw [pad, List.length_append, Nat.add_sub_cancel_left]
  induction s with
  | nil => exact replicate_le hleast t
  | cons x s ih => exact cons_le_cons_iff.mpr (.inr ⟨rfl, ih⟩)

/-- The first row that is not below the filled prefix has the prefix exactly if some row has. -/
theorem exists_prefix_iff {ρ : Type*} {key : ρ → List α} {rows : List ρ} {n : ℕ}
    (hleast : ∀ a, least ≤ a) (hsorted : rows.Pairwise fun a b => key a ≤ key b)
    (hlength : ∀ r ∈ rows, (key r).length = n) (s : List α) :
    (∃ r ∈ rows, s <+: key r) ↔
      ∃ r rest, lowerBound key (pad least n s) rows = r :: rest ∧ s <+: key r := by
  constructor
  · rintro ⟨r, hr, hprefix⟩
    have hle : pad least n s ≤ key r := by
      rw [← hlength r hr]
      exact pad_le hleast hprefix
    cases hfrom : lowerBound key (pad least n s) rows with
    | nil => exact absurd hle (not_le.mpr ((lowerBound_eq_nil_iff hsorted).mp hfrom r hr))
    | cons first rest =>
        obtain ⟨-, hbound, hfirst⟩ := head_lowerBound hsorted hfrom
        have hpad : s <+: pad least n s := List.prefix_append s _
        exact ⟨first, rest, rfl, prefix_of_between hbound (hfirst r hr hle) hpad hprefix⟩
  · rintro ⟨r, rest, hfrom, hprefix⟩
    exact ⟨r, (head_lowerBound hsorted hfrom).1, hprefix⟩

end Pad

/-! ### Letters written as words -/

/-- Words of one length in order stay in order whatever comes after them. -/
theorem append_lt_append {l m : List α} (hlength : l.length = m.length) (h : l < m)
    (l' m' : List α) : l ++ l' < m ++ m' := by
  induction l generalizing m with
  | nil =>
      rw [List.eq_nil_of_length_eq_zero hlength.symm] at h
      exact absurd h (lt_irrefl _)
  | cons x l ih =>
      cases m with
      | nil => cases hlength
      | cons y m =>
          rw [List.cons_lt_cons_iff] at h
          rw [List.cons_append, List.cons_append, List.cons_lt_cons_iff]
          obtain hlt | ⟨rfl, htail⟩ := h
          · exact .inl hlt
          · exact .inr ⟨rfl, ih (Nat.succ.inj hlength) htail⟩

/-- Where each letter is written as a word of one length, in the order of the letters, the
words keep their order. -/
theorem flatMap_strictMono {f : α → List β} (hf : StrictMono f)
    {n : ℕ} (hlength : ∀ a, (f a).length = n + 1) :
    StrictMono fun l : List α => l.flatMap f := by
  intro l m h
  dsimp only
  induction l generalizing m with
  | nil =>
      cases m with
      | nil => exact absurd h (lt_irrefl _)
      | cons y m =>
          obtain ⟨b, bs, hy⟩ := List.exists_cons_of_length_eq_add_one (hlength y)
          rw [List.flatMap_nil, List.flatMap_cons, hy]
          exact List.nil_lt_cons b _
  | cons x l ih =>
      cases m with
      | nil => exact absurd h (not_lt.mpr (List.nil_lt_cons x l).le)
      | cons y m =>
          rw [List.flatMap_cons, List.flatMap_cons]
          rw [List.cons_lt_cons_iff] at h
          obtain hlt | ⟨rfl, htail⟩ := h
          · exact append_lt_append ((hlength x).trans (hlength y).symm) (hf hlt) _ _
          · exact List.append_left_lt (ih htail)

end Words

end PrefixSearch
