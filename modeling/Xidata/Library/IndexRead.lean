import Mathlib.Data.List.Basic
import Mathlib.Data.List.Perm.Basic
import Mathlib.Order.Lattice.Nat
import Mathlib.Tactic.Common

/-!
Reading an ordered index between two positions.  Positions are found by lower bounds, and a
read goes from one position to another, skips entries, and stops early when it has a given
number of rows.  When the first position is behind the second one, the read does not meet
it and runs to the end of the index, where it fails.
-/

namespace IndexRead

variable {α β : Type*} {below below' : α → Bool} {l : List α} {i : ℕ}

/-! ### Lower bounds -/

/-- What is below a bound comes first. -/
def Ordered (below : α → Bool) (l : List α) : Prop :=
  l.Pairwise fun a b => below b → below a

/-- The position of the first entry that is not below the bound. -/
def lowerBound (below : α → Bool) (l : List α) : ℕ :=
  l.findIdx fun a => !below a

theorem lowerBound_le_length (below : α → Bool) (l : List α) : lowerBound below l ≤ l.length :=
  List.findIdx_le_length

theorem lt_lowerBound_iff (h : Ordered below l) (hi : i < l.length) :
    i < lowerBound below l ↔ below l[i] := by
  constructor
  · intro hlt
    simpa using List.not_of_lt_findIdx hlt
  · intro hbelow
    by_contra hge
    have hle : lowerBound below l ≤ i := not_lt.mp hge
    have hfirst : below l[lowerBound below l] = false := by
      have hget := List.findIdx_getElem (p := fun a => !below a) (w := hle.trans_lt hi)
      exact Bool.not_eq_true' _ |>.mp hget
    rcases hle.lt_or_eq with hlt | heq
    · have := List.pairwise_iff_getElem.mp h _ i (hle.trans_lt hi) hi hlt hbelow
      simp [hfirst] at this
    · simp [heq, hbelow] at hfirst

theorem take_lowerBound (h : Ordered below l) : l.take (lowerBound below l) = l.filter below := by
  induction l with
  | nil => rfl
  | cons a l ih =>
      obtain ⟨ha, hl⟩ := List.pairwise_cons.mp h
      cases hbelow : below a with
      | true =>
          rw [lowerBound, List.findIdx_cons, hbelow, List.filter_cons_of_pos hbelow]
          exact congrArg (a :: ·) (ih hl)
      | false =>
          have hnone : l.filter below = [] := List.filter_eq_nil_iff.mpr fun b hb hbb => by
            simpa [hbelow] using ha b hb hbb
          rw [lowerBound, List.findIdx_cons, hbelow,
            List.filter_cons_of_neg (by simp [hbelow]), hnone]
          rfl

theorem drop_lowerBound (h : Ordered below l) :
    l.drop (lowerBound below l) = l.filter fun a => !below a := by
  induction l with
  | nil => rfl
  | cons a l ih =>
      obtain ⟨ha, hl⟩ := List.pairwise_cons.mp h
      cases hbelow : below a with
      | true =>
          rw [lowerBound, List.findIdx_cons, hbelow, List.filter_cons_of_neg (by simp [hbelow])]
          exact ih hl
      | false =>
          have hall : l.filter (fun a => !below a) = l := List.filter_eq_self.mpr fun b hb => by
            cases hbb : below b with
            | true => simpa [hbelow] using ha b hb hbb
            | false => rfl
          rw [lowerBound, List.findIdx_cons, hbelow, List.filter_cons_of_pos (by simp [hbelow]),
            hall]
          rfl

theorem eq_append_filter (h : Ordered below l) :
    l = l.filter below ++ l.filter fun a => !below a := by
  rw [← take_lowerBound h, ← drop_lowerBound h, List.take_append_drop]

/-- Between two positions are the entries that are below the second and not the first. -/
theorem take_drop_lowerBound (h : Ordered below l) (h' : Ordered below' l)
    (hle : lowerBound below l ≤ lowerBound below' l) :
    (l.drop (lowerBound below l)).take (lowerBound below' l - lowerBound below l) =
      l.filter fun a => !below a && below' a := by
  have hfirst : ((l.take (lowerBound below' l)).take (lowerBound below l)).filter
      (fun a => !below a) = [] := by
    rw [List.take_take, Nat.min_eq_left hle, take_lowerBound h, List.filter_filter,
      List.filter_eq_nil_iff]
    intro a _
    simp
  have hrest : ((l.take (lowerBound below' l)).drop (lowerBound below l)).filter
      (fun a => !below a) = (l.take (lowerBound below' l)).drop (lowerBound below l) := by
    rw [List.filter_eq_self]
    intro a ha
    have hmem : a ∈ l.drop (lowerBound below l) := by
      rw [List.drop_take] at ha
      exact List.mem_of_mem_take ha
    rw [drop_lowerBound h] at hmem
    exact (List.mem_filter.mp hmem).2
  have hsplit := congrArg (List.filter fun a => !below a)
    (List.take_append_drop (lowerBound below l) (l.take (lowerBound below' l)))
  rw [List.filter_append, hfirst, hrest, List.nil_append, take_lowerBound h',
    List.filter_filter] at hsplit
  rw [← List.drop_take, take_lowerBound h', hsplit]

/-- The positions are out of order when an entry is below the first bound only. -/
theorem lowerBound_le_iff (h : Ordered below l) (h' : Ordered below' l) :
    lowerBound below l ≤ lowerBound below' l ↔ ∀ a ∈ l, below a → below' a := by
  constructor
  · intro hle a ha hbelow
    obtain ⟨i, hi, rfl⟩ := List.getElem_of_mem ha
    exact (lt_lowerBound_iff h' hi).mp (((lt_lowerBound_iff h hi).mpr hbelow).trans_le hle)
  · intro hall
    by_contra hlt
    rw [not_le] at hlt
    have hi : lowerBound below' l < l.length := hlt.trans_le (lowerBound_le_length below l)
    have hbelow := (lt_lowerBound_iff h hi).mp hlt
    exact absurd ((lt_lowerBound_iff h' hi).mpr (hall _ (List.getElem_mem hi) hbelow))
      (Nat.lt_irrefl _)

/-- The position in a part of the index, when what comes before it is below the bound and
what comes after it is not. -/
theorem lowerBound_append {before after : List α} (hbefore : ∀ a ∈ before, below a)
    (hafter : ∀ a ∈ after, below a = false) :
    lowerBound below (before ++ (l ++ after)) = before.length + lowerBound below l := by
  have hskip : before.findIdx (fun a => !below a) = before.length :=
    List.findIdx_eq_length_of_false fun a ha => by simp [hbefore a ha]
  unfold lowerBound
  rw [List.findIdx_append, hskip, if_neg (Nat.lt_irrefl _), List.findIdx_append, Nat.add_comm]
  split
  · rfl
  · next hge =>
      have hall : l.findIdx (fun a => !below a) = l.length :=
        le_antisymm List.findIdx_le_length (not_lt.mp hge)
      have hnone : after.findIdx (fun a => !below a) = 0 := by
        cases after with
        | nil => rfl
        | cons a after =>
            rw [List.findIdx_cons, hafter a List.mem_cons_self]
            rfl
      rw [hall, hnone, Nat.zero_add]

/-! ### Reading -/

/-- Where a read has stopped: at its end, or at the entry of the last row if it has become
full there. -/
structure Stop (β : Type*) where
  rows : List β
  pos : ℕ
  full : Bool
  deriving DecidableEq

/-- Read from `pos`, where `l` is left of the index and `count` rows have been read before.
Entries without a row are skipped. -/
def read (row : α → Option β) (limit upper : ℕ) : List α → ℕ → ℕ → Option (Stop β)
  | [], pos, _ => if pos = upper then some ⟨[], pos, false⟩ else none
  | a :: l, pos, count =>
    if pos = upper then some ⟨[], pos, false⟩
    else
      match row a with
      | none => read row limit upper l (pos + 1) count
      | some b =>
        if count + 1 = limit then some ⟨[b], pos, true⟩
        else (read row limit upper l (pos + 1) (count + 1)).map fun r => { r with rows := b :: r.rows }

variable {row : α → Option β} {limit upper pos count : ℕ} {r : Stop β}

/-- A full read has gone on to an entry with a row. -/
structure Fills (row : α → Option β) (limit upper : ℕ) (l : List α) (pos count : ℕ) (r : Stop β)
    (before : List α) (a : α) (after : List α) (b : β) : Prop where
  hsplit : l = before ++ a :: after
  hrow : row a = some b
  hrows : r.rows = before.filterMap row ++ [b]
  hlimit : count + (before.filterMap row).length + 1 = limit
  hpos : r.pos = pos + before.length
  hupper : upper < pos ∨ r.pos < upper

/-- A read that has not become full has met its end. -/
structure Ends (row : α → Option β) (limit upper : ℕ) (l : List α) (pos count : ℕ)
    (r : Stop β) : Prop where
  hpos : r.pos = upper
  hle : pos ≤ upper
  hlength : upper ≤ pos + l.length
  hrows : r.rows = (l.take (upper - pos)).filterMap row
  hlimit : count < limit → count + r.rows.length < limit

theorem Fills.cons {before after : List α} {a a' : α} {b : β}
    (h : Fills row limit upper l (pos + 1) count r before a after b) (hpos : pos ≠ upper)
    (hrow : row a' = none) :
    Fills row limit upper (a' :: l) pos count r (a' :: before) a after b where
  hsplit := congrArg (a' :: ·) h.hsplit
  hrow := h.hrow
  hrows := by rw [List.filterMap_cons_none hrow, h.hrows]
  hlimit := by rw [List.filterMap_cons_none hrow, h.hlimit]
  hpos := by rw [h.hpos, List.length_cons]; omega
  hupper := by have := h.hupper; omega

theorem read_cases (hr : read row limit upper l pos count = some r) :
    (r.full = true ∧ ∃ before a after b, Fills row limit upper l pos count r before a after b) ∨
      r.full = false ∧ Ends row limit upper l pos count r := by
  induction l generalizing pos count r with
  | nil =>
      unfold read at hr
      split at hr
      next heq =>
        cases hr
        refine .inr ⟨rfl, heq, heq.le, ?_, ?_, ?_⟩
        · simp [heq]
        · simp
        · simp
      next => cases hr
  | cons a l ih =>
      unfold read at hr
      split at hr
      next heq =>
        cases hr
        refine .inr ⟨rfl, heq, heq.le, ?_, ?_, ?_⟩
        · simp [heq]
        · simp [heq]
        · simp
      next hne =>
        cases hrow : row a with
        | none =>
            rw [hrow] at hr
            obtain ⟨hfull, before, a', after, b, hfills⟩ | ⟨hfull, hends⟩ := ih hr
            · exact .inl ⟨hfull, a :: before, a', after, b, hfills.cons hne hrow⟩
            · obtain ⟨hpos, hle, hlength, hrows, hlimit⟩ := hends
              refine .inr ⟨hfull, hpos, by omega, by rw [List.length_cons]; omega, ?_, hlimit⟩
              rw [show upper - pos = upper - (pos + 1) + 1 by omega, List.take_succ_cons,
                List.filterMap_cons_none hrow, hrows]
        | some b =>
            rw [hrow] at hr
            dsimp only at hr
            split at hr
            next hlimit =>
              cases hr
              exact .inl ⟨rfl, [], a, l, b, rfl, hrow, rfl, hlimit, rfl, by dsimp only; omega⟩
            next hlimit =>
              obtain ⟨r', hr', rfl⟩ := Option.map_eq_some_iff.mp hr
              obtain ⟨hfull, before, a', after, b', hfills⟩ | ⟨hfull, hends⟩ := ih hr'
              · refine .inl ⟨hfull, a :: before, a', after, b', ?_⟩
                obtain ⟨hsplit, hrow', hrows, hlimit', hpos, hupper⟩ := hfills
                refine ⟨congrArg (a :: ·) hsplit, hrow', ?_, ?_, ?_, ?_⟩
                · rw [List.filterMap_cons_some hrow, hrows, List.cons_append]
                · rw [List.filterMap_cons_some hrow, List.length_cons]; omega
                · rw [hpos, List.length_cons]; omega
                · dsimp only at hpos hupper ⊢; omega
              · obtain ⟨hpos, hle, hlength, hrows, hlimit'⟩ := hends
                refine .inr ⟨hfull, hpos, by omega, by rw [List.length_cons]; omega, ?_, ?_⟩
                · rw [show upper - pos = upper - (pos + 1) + 1 by omega, List.take_succ_cons,
                    List.filterMap_cons_some hrow, hrows]
                · intro hlt
                  rw [List.length_cons]
                  have := hlimit' (by omega)
                  omega

/-- A read from a position before its end succeeds. -/
theorem read_isSome (hle : pos ≤ upper) (hlength : upper ≤ pos + l.length) (count : ℕ) :
    (read row limit upper l pos count).isSome := by
  induction l generalizing pos count with
  | nil =>
      have heq : pos = upper := by simp at hlength; omega
      simp [read, heq]
  | cons a l ih =>
      unfold read
      split
      next => rfl
      next hne =>
        have hle' : pos + 1 ≤ upper := by omega
        have hlength' : upper ≤ pos + 1 + l.length := by rw [List.length_cons] at hlength; omega
        cases row a with
        | none => exact ih hle' hlength' count
        | some b =>
            dsimp only
            split
            · rfl
            · rw [Option.isSome_map]
              exact ih hle' hlength' (count + 1)

/-- Between two positions a read returns the first rows, up to its limit. -/
theorem read_rows (hlimit : 1 ≤ limit) (hr : read row limit upper l pos 0 = some r)
    (hle : pos ≤ upper) : r.rows = ((l.take (upper - pos)).filterMap row).take limit := by
  obtain ⟨-, before, a, after, b, hfills⟩ | ⟨-, hends⟩ := read_cases hr
  · obtain ⟨hsplit, hrow, hrows, hcount, hpos, hupper⟩ := hfills
    have hcut : l.take (upper - pos) = before ++ a :: after.take (upper - pos - before.length - 1) := by
      rw [hsplit, List.take_append, List.take_of_length_le (by omega),
        show upper - pos - before.length = upper - pos - before.length - 1 + 1 by omega,
        List.take_succ_cons]
      rfl
    have hlen : (before.filterMap row ++ [b]).length = limit := by
      rw [List.length_append, List.length_singleton]
      omega
    rw [hcut, List.filterMap_append, List.filterMap_cons_some hrow]
    generalize List.filterMap row (after.take _) = rest
    rw [List.append_cons, hrows, ← hlen, List.take_left]
  · have hfew := hends.hlimit (by omega)
    rw [← hends.hrows, List.take_of_length_le (by omega)]

/-- A read becomes full where there are enough rows up to its end. -/
theorem full_iff (hlimit : 1 ≤ limit) (hr : read row limit upper l pos 0 = some r)
    (hle : pos ≤ upper) : r.full = true ↔ limit ≤ ((l.take (upper - pos)).filterMap row).length := by
  have hrows := read_rows hlimit hr hle
  obtain ⟨hfull, before, a, after, b, hfills⟩ | ⟨hfull, hends⟩ := read_cases hr
  · refine iff_of_true hfull ?_
    have hlength : (before.filterMap row ++ [b]).length =
        min limit ((l.take (upper - pos)).filterMap row).length := by
      rw [← hfills.hrows, hrows, List.length_take]
    have hcount := hfills.hlimit
    rw [List.length_append, List.length_singleton] at hlength
    omega
  · have hfew := hends.hlimit (by omega)
    rw [← hends.hrows]
    exact iff_of_false (by rw [hfull]; exact Bool.false_ne_true) (by omega)

/-- Whether the read has stopped before its end does not tell whether there are more rows: it
always has when it is full. -/
theorem pos_ne_iff (hlimit : 1 ≤ limit) (hr : read row limit upper l pos 0 = some r)
    (hle : pos ≤ upper) :
    r.pos ≠ upper ↔ limit ≤ ((l.take (upper - pos)).filterMap row).length := by
  rw [← full_iff hlimit hr hle]
  obtain ⟨hfull, before, a, after, b, hfills⟩ | ⟨hfull, hends⟩ := read_cases hr
  · have hbefore := hfills.hupper.resolve_left (not_lt.mpr hle)
    exact iff_of_true hbefore.ne hfull
  · refine iff_of_false (not_not.mpr hends.hpos) ?_
    rw [hfull]
    exact Bool.false_ne_true

/-- Where every entry has a row, there are more rows if something is left behind the last one. -/
theorem behind_ne_iff (hlimit : 1 ≤ limit) (hr : read row limit upper l pos 0 = some r)
    (hle : pos ≤ upper) (hlength : upper ≤ pos + l.length) (hall : ∀ a, (row a).isSome) :
    (if r.full then r.pos + 1 else r.pos) ≠ upper ↔
      limit < ((l.take (upper - pos)).filterMap row).length := by
  have hcount : ∀ m : List α, (m.filterMap row).length = m.length := by
    intro m
    induction m with
    | nil => rfl
    | cons a m ih =>
        obtain ⟨b, hb⟩ := Option.isSome_iff_exists.mp (hall a)
        rw [List.filterMap_cons_some hb, List.length_cons, List.length_cons, ih]
  rw [hcount, List.length_take, Nat.min_eq_left (by omega)]
  obtain ⟨hfull, before, a, after, b, hfills⟩ | ⟨hfull, hends⟩ := read_cases hr
  · have hbefore := hfills.hlimit
    have hpos := hfills.hpos
    have hupper := hfills.hupper
    rw [hcount] at hbefore
    rw [if_pos hfull]
    omega
  · have hfew := hends.hlimit (by omega)
    rw [hends.hrows, hcount, List.length_take, Nat.min_eq_left (by omega)] at hfew
    rw [hfull, if_neg Bool.false_ne_true]
    exact iff_of_false (not_not.mpr hends.hpos) (by omega)

/-- From a position behind its end a read has at least one row, if it succeeds. -/
theorem rows_ne_nil_of_lt (hr : read row limit upper l pos count = some r) (hlt : upper < pos) :
    r.rows ≠ [] := by
  obtain ⟨-, before, a, after, b, hfills⟩ | ⟨-, hends⟩ := read_cases hr
  · rw [hfills.hrows]
    exact List.append_ne_nil_of_right_ne_nil _ (List.cons_ne_nil b [])
  · exact absurd hends.hle (by omega)

/-- Only the entries up to the end matter. -/
theorem read_take (hle : pos ≤ upper) (count : ℕ) :
    read row limit upper l pos count = read row limit upper (l.take (upper - pos)) pos count := by
  induction l generalizing pos count with
  | nil => rw [List.take_nil]
  | cons a l ih =>
      rcases hle.eq_or_lt with heq | hlt
      · rw [heq, Nat.sub_self, List.take_zero]
        simp [read]
      · rw [show upper - pos = upper - (pos + 1) + 1 by omega, List.take_succ_cons]
        unfold read
        rw [if_neg hlt.ne, if_neg hlt.ne]
        cases row a with
        | none => exact ih hlt count
        | some b =>
            dsimp only
            rw [ih hlt (count + 1)]

/-- From behind its end a read goes on like one to the end of the index, which it does not
take for its own. -/
theorem read_of_lt (hlt : upper < pos) (count : ℕ) :
    read row limit upper l pos count =
      (read row limit (pos + l.length) l pos count).filter Stop.full := by
  induction l generalizing pos count with
  | nil => simp [read, hlt.ne', Option.filter]
  | cons a l ih =>
      unfold read
      rw [if_neg hlt.ne', if_neg (by simp), List.length_cons,
        show pos + (l.length + 1) = pos + 1 + l.length by omega]
      cases row a with
      | none => exact ih (by omega) count
      | some b =>
          dsimp only
          split
          · rfl
          · rw [ih (by omega) (count + 1)]
            cases read row limit (pos + 1 + l.length) l (pos + 1) (count + 1) with
            | none => rfl
            | some r => cases hfull : r.full <;> simp [Option.filter, hfull]

/-- The positions may be counted from elsewhere. -/
theorem read_add (k : ℕ) :
    read row limit (upper + k) l (pos + k) count =
      (read row limit upper l pos count).map fun r => { r with pos := r.pos + k } := by
  induction l generalizing pos count with
  | nil =>
      unfold read
      by_cases h : pos = upper
      · rw [if_pos h, if_pos (by omega)]
        rfl
      · rw [if_neg h, if_neg (by omega)]
        rfl
  | cons a l ih =>
      unfold read
      by_cases h : pos = upper
      · rw [if_pos h, if_pos (by omega)]
        rfl
      · rw [if_neg h, if_neg (by omega), show pos + k + 1 = pos + 1 + k by omega]
        cases row a with
        | none => exact ih
        | some b =>
            dsimp only
            split
            · rfl
            · rw [ih, Option.map_map, Option.map_map]
              rfl

end IndexRead
