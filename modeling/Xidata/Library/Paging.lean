import Xidata.Library.IndexRead

/-!
Reading a list page by page.  Each page has a limited number of rows; the entry where it has
stopped decides where the next page starts.  The pages together have every row once exactly
when none of them starts again before its predecessor has ended.
-/

namespace Paging

open IndexRead (Stop Fills Ends read)

variable {α β σ : Type*}

/-- The rows of all pages from the token `s` on, if they come to an end within `n` pages. -/
def collect (page : σ → Option (List β × Option σ)) : ℕ → σ → Option (List β)
  | 0, _ => none
  | n + 1, s =>
    match page s with
    | none => none
    | some (rows, none) => some rows
    | some (rows, some s') => (collect page n s').map (rows ++ ·)

/-- What is made of the entry where a page has stopped. -/
inductive Next
  | last
  | resume (pos : ℕ)
  deriving DecidableEq

/-- A page with these rows. -/
def Next.page (rows : List β) : Next → List β × Option ℕ
  | .last => (rows, none)
  | .resume p => (rows, some p)

section Pages

variable (row : α → Option β) (limit : ℕ) (next : α → Next) (meets : Bool) (l : List α)

/-- The page from a position on.  `meets` is whether a page may end where the list does. -/
def pageAt (pos : ℕ) : Option (List β × Option ℕ) :=
  match read row limit l.length (l.drop pos) pos 0 with
  | none => none
  | some r =>
    match l[if r.full then r.pos + 1 else r.pos]? with
    | none => if meets then some (r.rows, none) else none
    | some e => some ((next e).page r.rows)

/-- All pages from a position on come to an end and have every row once. -/
def Complete (pos : ℕ) : Prop :=
  ∃ n rows, collect (pageAt row limit next meets l) n pos = some rows ∧
    rows.Perm ((l.drop pos).filterMap row)

/-- A page that starts at `pos`, or one after it, ends with `m`, and `e` is the entry after
it. -/
structure Boundary (pos : ℕ) (before : List α) (m e : α) (after : List α) : Prop where
  hsplit : l.drop pos = before ++ m :: e :: after
  hrow : (row m).isSome
  hfull : limit ∣ (before.filterMap row).length + 1

/-- The next page starts behind `m`, or nothing is left for it. -/
def Resumes (pos : ℕ) (before : List α) (e : α) (after : List α) : Prop :=
  next e = .last ∧ (e :: after).filterMap row = [] ∨
    ∃ p, next e = .resume p ∧ pos + before.length < p

/-- No page goes back, and the last one ends. -/
structure Resumable (pos : ℕ) : Prop where
  resumes : ∀ before m e after, Boundary row limit l pos before m e after →
    Resumes row next pos before e after
  ends : meets ∨ ∃ before m e after, Boundary row limit l pos before m e after ∧ next e = .last

end Pages

variable {row : α → Option β} {limit : ℕ} {next : α → Next} {meets : Bool} {l : List α}
  {pos : ℕ} {before after : List α} {m e : α}

/-- The position of the entry after `m`. -/
theorem drop_boundary (h : l.drop pos = before ++ m :: after) :
    l.drop (pos + before.length + 1) = after := by
  rw [Nat.add_assoc, ← List.drop_drop, h, ← List.drop_drop, List.drop_left]
  rfl

theorem filterMap_boundary (h : l.drop pos = before ++ m :: after) :
    (l.drop pos).filterMap row = (before ++ [m]).filterMap row ++ after.filterMap row := by
  rw [h, List.append_cons before m after, List.filterMap_append]

theorem collect_resume {page : σ → Option (List β × Option σ)} {s s' : σ} {rows : List β}
    (h : page s = some (rows, some s')) {P : List β → Prop} :
    (∃ n all, collect page n s = some all ∧ P all) ↔
      ∃ n rest, collect page n s' = some rest ∧ P (rows ++ rest) := by
  constructor
  · rintro ⟨n, all, hall, hP⟩
    cases n with
    | zero => cases hall
    | succ n =>
        rw [collect, h] at hall
        obtain ⟨rest, hrest, rfl⟩ := Option.map_eq_some_iff.mp hall
        exact ⟨n, rest, hrest, hP⟩
  · rintro ⟨n, rest, hrest, hP⟩
    exact ⟨n + 1, rows ++ rest, by rw [collect, h]; simp [hrest], hP⟩

theorem collect_last {page : σ → Option (List β × Option σ)} {s : σ} {rows : List β}
    (h : page s = some (rows, none)) {P : List β → Prop} :
    (∃ n all, collect page n s = some all ∧ P all) ↔ P rows := by
  constructor
  · rintro ⟨n, all, hall, hP⟩
    cases n with
    | zero => cases hall
    | succ n =>
        rw [collect, h] at hall
        exact Option.some.inj hall ▸ hP
  · intro hP
    exact ⟨1, rows, by rw [collect, h], hP⟩

theorem not_collect {page : σ → Option (List β × Option σ)} {s : σ} (h : page s = none)
    {P : List β → Prop} : ¬ ∃ n all, collect page n s = some all ∧ P all := by
  rintro ⟨n, all, hall, -⟩
  cases n with
  | zero => cases hall
  | succ n =>
      rw [collect, h] at hall
      cases hall

/-- Tokens of two kinds that stand for each other make the same pages. -/
theorem collect_congr {τ : Type*} {page : σ → Option (List β × Option σ)}
    {page' : τ → Option (List β × Option τ)} {R : σ → τ → Prop}
    (h : ∀ s t, R s t → page s = none ∧ page' t = none ∨
      ∃ rows, page s = some (rows, none) ∧ page' t = some (rows, none) ∨
        ∃ s' t', R s' t' ∧ page s = some (rows, some s') ∧ page' t = some (rows, some t'))
    {s : σ} {t : τ} (hR : R s t) (n : ℕ) : collect page n s = collect page' n t := by
  induction n generalizing s t with
  | zero => rfl
  | succ n ih =>
      obtain ⟨hs, ht⟩ | ⟨rows, ⟨hs, ht⟩ | ⟨s', t', hR', hs, ht⟩⟩ := h s t hR
      · rw [collect, collect, hs, ht]
      · rw [collect, collect, hs, ht]
      · rw [collect, collect, hs, ht]
        exact congrArg (Option.map (rows ++ ·)) (ih hR')

/-! ### One page -/

theorem getElem?_boundary (h : l.drop pos = before ++ m :: after) :
    l[pos + before.length + 1]? = after.head? := by
  rw [← drop_boundary h, List.head?_drop]

variable (next meets) in
/-- A page has all rows that are left, or it is full after `m`. -/
theorem pageAt_cases (hlimit : 1 ≤ limit) (hpos : pos ≤ l.length) :
    ((l.drop pos).filterMap row).length < limit ∧
        pageAt row limit next meets l pos =
          (if meets then some ((l.drop pos).filterMap row, none) else none) ∨
      ∃ before m after, l.drop pos = before ++ m :: after ∧ (row m).isSome ∧
        ((before ++ [m]).filterMap row).length = limit ∧
        (after = [] → pageAt row limit next meets l pos =
          if meets then some ((before ++ [m]).filterMap row, none) else none) ∧
        ∀ e rest, after = e :: rest → pageAt row limit next meets l pos =
          some ((next e).page ((before ++ [m]).filterMap row)) := by
  have hlength : l.length ≤ pos + (l.drop pos).length := by rw [List.length_drop]; omega
  obtain ⟨r, hr⟩ := Option.isSome_iff_exists.mp
    (IndexRead.read_isSome hpos hlength 0 : (read row limit _ _ _ 0).isSome)
  obtain ⟨hfull, before, m, after, b, hfills⟩ | ⟨hfull, hends⟩ := IndexRead.read_cases hr
  · have hrows : r.rows = (before ++ [m]).filterMap row := by
      rw [hfills.hrows, List.filterMap_append, List.filterMap_cons_some hfills.hrow]
      rfl
    refine .inr ⟨before, m, after, hfills.hsplit, by rw [hfills.hrow]; rfl, ?_, ?_, ?_⟩
    · rw [← hrows, hfills.hrows, List.length_append, List.length_singleton, ← hfills.hlimit]
      omega
    · rintro rfl
      simp [pageAt, hr, hfull, hfills.hpos, getElem?_boundary hfills.hsplit, hrows]
    · rintro e rest rfl
      simp [pageAt, hr, hfull, hfills.hpos, getElem?_boundary hfills.hsplit, hrows]
  · have hrows : r.rows = (l.drop pos).filterMap row := by
      rw [hends.hrows, List.take_of_length_le (by rw [List.length_drop])]
    refine .inl ⟨?_, ?_⟩
    · rw [← hrows]
      have := hends.hlimit (by omega)
      omega
    · simp [pageAt, hr, hfull, hends.hpos, hrows]

/-! ### All pages -/

/-- Where fewer rows are left than make a page, no page ends before the list does. -/
theorem not_boundary (hshort : ((l.drop pos).filterMap row).length < limit) :
    ¬ Boundary row limit l pos before m e after := by
  rintro ⟨hsplit, hrow, hfull⟩
  obtain ⟨b, hb⟩ := Option.isSome_iff_exists.mp hrow
  have hle := Nat.le_of_dvd (Nat.succ_pos _) hfull
  rw [hsplit, List.filterMap_append, List.filterMap_cons_some hb, List.length_append,
    List.length_cons] at hshort
  omega

/-- The end of the first page is a boundary, and so are those of what comes after it. -/
theorem boundary_first (hsplit : l.drop pos = before ++ m :: e :: after) (hrow : (row m).isSome)
    (hlength : ((before ++ [m]).filterMap row).length = limit) :
    Boundary row limit l pos before m e after := by
  obtain ⟨b, hb⟩ := Option.isSome_iff_exists.mp hrow
  refine ⟨hsplit, hrow, ?_⟩
  rw [← hlength, List.filterMap_append, List.filterMap_cons_some hb, List.length_append]
  exact dvd_rfl

theorem boundary_later {before₀ after₀ : List α} {m₀ : α}
    (hsplit : l.drop pos = before₀ ++ m₀ :: after₀)
    (hlength : ((before₀ ++ [m₀]).filterMap row).length = limit)
    (h : Boundary row limit l (pos + before₀.length + 1) before m e after) :
    Boundary row limit l pos (before₀ ++ m₀ :: before) m e after := by
  obtain ⟨hrest, hrow, hfull⟩ := h
  refine ⟨?_, hrow, ?_⟩
  · rw [drop_boundary hsplit] at hrest
    rw [hsplit, hrest, List.append_assoc, List.cons_append]
  · rw [List.append_cons, List.filterMap_append, List.length_append, hlength, Nat.add_assoc]
    exact (Nat.dvd_add_right (dvd_refl limit)).mpr hfull

theorem boundary_cases {before₀ after₀ : List α} {m₀ : α}
    (hsplit : l.drop pos = before₀ ++ m₀ :: after₀) (hrow₀ : (row m₀).isSome)
    (hlength : ((before₀ ++ [m₀]).filterMap row).length = limit)
    (h : Boundary row limit l pos before m e after) :
    before = before₀ ∧ m = m₀ ∧ after₀ = e :: after ∨
      ∃ between, before = before₀ ++ m₀ :: between ∧
        Boundary row limit l (pos + before₀.length + 1) between m e after := by
  obtain ⟨hsplit', hrow, hfull⟩ := h
  obtain ⟨b, hb⟩ := Option.isSome_iff_exists.mp hrow
  rw [hsplit] at hsplit'
  obtain ⟨between, hbefore, hafter⟩ | ⟨between, hbefore, hafter⟩ :=
    List.append_eq_append_iff.mp hsplit'
  · cases between with
    | nil =>
        obtain ⟨hm, hafter⟩ := List.cons.inj hafter
        exact .inl ⟨by rw [hbefore, List.append_nil], hm.symm, hafter⟩
    | cons m₁ between =>
        obtain ⟨rfl, hrest⟩ := List.cons.inj hafter
        refine .inr ⟨between, hbefore, ?_, hrow, ?_⟩
        · exact (drop_boundary hsplit).trans hrest
        · rw [hbefore, List.append_cons, List.filterMap_append, List.length_append, hlength,
            Nat.add_assoc] at hfull
          exact (Nat.dvd_add_right (dvd_refl limit)).mp hfull
  · cases between with
    | nil =>
        obtain ⟨hm, hafter⟩ := List.cons.inj hafter
        exact .inl ⟨by rw [hbefore, List.append_nil], hm, hafter.symm⟩
    | cons m₁ between =>
        -- a boundary within the first page would have too few rows before it
        obtain ⟨rfl, -⟩ := List.cons.inj hafter
        have hle := Nat.le_of_dvd (Nat.succ_pos _) hfull
        obtain ⟨b₀, hb₀⟩ := Option.isSome_iff_exists.mp hrow₀
        rw [hbefore, List.filterMap_append, List.filterMap_append, List.filterMap_cons_some hb,
          List.filterMap_cons_some hb₀, List.length_append, List.length_append, List.length_cons,
          List.length_cons] at hlength
        omega

/-! ### All pages together -/

theorem prefix_collect {page : σ → Option (List β × Option σ)} {s : σ} {n : ℕ} {all : List β}
    (h : collect page n s = some all) : ∃ rows o, page s = some (rows, o) ∧ rows <+: all := by
  cases n with
  | zero => cases h
  | succ n =>
      rw [collect] at h
      split at h
      · cases h
      · next rows hpage => exact ⟨rows, none, hpage, Option.some.inj h ▸ List.prefix_rfl⟩
      · next rows s' hpage =>
          obtain ⟨rest, -, rfl⟩ := Option.map_eq_some_iff.mp h
          exact ⟨rows, some s', hpage, List.prefix_append rows rest⟩

theorem Next.rows_of_page {next : Next} {rows rows' : List β} {o : Option ℕ}
    (h : next.page rows = (rows', o)) : rows' = rows := by
  cases next <;> exact (congrArg Prod.fst h).symm

/-- A page starts with the first row that is left. -/
theorem head_mem_pageAt (hlimit : 1 ≤ limit) (hpos : pos ≤ l.length) {rows ys : List β} {y : β}
    {o : Option ℕ} (h : pageAt row limit next meets l pos = some (rows, o))
    (hy : (l.drop pos).filterMap row = y :: ys) : y ∈ rows := by
  obtain ⟨-, hpage⟩ | ⟨before, m, after, hsplit, hrow, hlength, hend, hgo⟩ :=
    pageAt_cases next meets hlimit hpos
  · rw [h] at hpage
    split at hpage
    · cases hpage
      rw [hy]
      exact List.mem_cons_self
    · cases hpage
  · have hrows : rows = (before ++ [m]).filterMap row := by
      cases after with
      | nil =>
          rw [hend rfl] at h
          split at h
          · cases h; rfl
          · cases h
      | cons e rest =>
          rw [hgo e rest rfl] at h
          exact Next.rows_of_page (Option.some.inj h)
    rw [filterMap_boundary hsplit, ← hrows] at hy
    cases rows with
    | nil => rw [← hrows] at hlength; simp at hlength; omega
    | cons y' rows =>
        rw [List.cons_append] at hy
        rw [(List.cons.inj hy).1]
        exact List.mem_cons_self

/-- Pages that start again at a row of the page before have this row twice. -/
theorem not_complete_of_back (hlimit : 1 ≤ limit) (hnodup : (l.filterMap row).Nodup)
    (hsplit : l.drop pos = before ++ m :: after) (hrow : (row m).isSome) {p n : ℕ} {rest : List β}
    (hback : p ≤ pos + before.length)
    (hrest : collect (pageAt row limit next meets l) n p = some rest) :
    ¬ rest.Perm (after.filterMap row) := by
  intro hperm
  obtain ⟨b, hb⟩ := Option.isSome_iff_exists.mp hrow
  have hlt : pos + before.length < l.length := by
    have := congrArg List.length hsplit
    simp only [List.length_drop, List.length_append, List.length_cons] at this
    omega
  have hget : l[pos + before.length] = m := by
    have := congrArg (·[before.length]?) hsplit
    simp only [List.getElem?_drop, List.getElem?_append_right (Nat.le_refl _), Nat.sub_self,
      List.getElem?_cons_zero, List.getElem?_eq_getElem hlt] at this
    exact Option.some.inj this
  have hcut := List.take_append_drop (pos + before.length + 1) l
  rw [drop_boundary hsplit] at hcut
  -- the rows from `p` up to `m`, which are not empty
  have hdrop : l.drop p = (l.take (pos + before.length + 1)).drop p ++ after := by
    conv_lhs => rw [← hcut]
    rw [List.drop_append_of_le_length (by rw [List.length_take]; omega)]
  have hmem : m ∈ (l.take (pos + before.length + 1)).drop p := by
    rw [List.mem_drop_iff_getElem]
    refine ⟨pos + before.length - p, by rw [List.length_take]; omega, ?_⟩
    simp only [Nat.add_sub_cancel' hback, List.getElem_take]
    exact hget
  have hrows : ((l.take (pos + before.length + 1)).drop p).filterMap row ≠ [] :=
    List.ne_nil_of_mem (List.mem_filterMap.mpr ⟨m, hmem, hb⟩)
  obtain ⟨y, ys, hy⟩ := List.exists_cons_of_ne_nil hrows
  obtain ⟨rows, o, hpage, hpre⟩ := prefix_collect hrest
  have hfirst : y ∈ rows := head_mem_pageAt hlimit (by omega) hpage
    (by rw [hdrop, List.filterMap_append, hy, List.cons_append])
  have hafter : y ∈ after.filterMap row := hperm.subset (hpre.subset hfirst)
  have hbefore : y ∈ (l.take (pos + before.length + 1)).filterMap row := by
    have : y ∈ ((l.take (pos + before.length + 1)).drop p).filterMap row := hy ▸ List.mem_cons_self
    exact ((List.drop_sublist p _).filterMap row).subset this
  rw [← hcut, List.filterMap_append] at hnodup
  exact List.disjoint_of_nodup_append hnodup hbefore hafter

variable (row next l) in
/-- A page is taken up behind entries without a row at most. -/
def SkipsOnly : Prop :=
  ∀ q e p, l[q]? = some e → next e = .resume p →
    p ≤ l.length ∧ (q ≤ p → ((l.drop q).take (p - q)).filterMap row = [])

theorem drop_eq_append {q p : ℕ} (hle : q ≤ p) : l.drop q = (l.drop q).take (p - q) ++ l.drop p := by
  conv_lhs => rw [← List.take_append_drop (p - q) (l.drop q), List.drop_drop,
    Nat.add_sub_cancel' hle]

theorem boundary_skip {q p : ℕ} (hle : q ≤ p)
    (hnone : ((l.drop q).take (p - q)).filterMap row = []) :
    Boundary row limit l q before m e after ↔
      ∃ before', before = (l.drop q).take (p - q) ++ before' ∧
        Boundary row limit l p before' m e after := by
  constructor
  · rintro ⟨hsplit, hrow, hfull⟩
    obtain ⟨b, hb⟩ := Option.isSome_iff_exists.mp hrow
    rw [drop_eq_append hle] at hsplit
    obtain ⟨between, hbefore, hafter⟩ | ⟨between, hbefore, hafter⟩ :=
      List.append_eq_append_iff.mp hsplit
    · refine ⟨between, hbefore, hafter, hrow, ?_⟩
      rwa [hbefore, List.filterMap_append, hnone, List.nil_append] at hfull
    · cases between with
      | nil =>
          rw [List.append_nil] at hbefore
          refine ⟨[], by rw [List.append_nil, hbefore], hafter.symm, hrow, ?_⟩
          rwa [← hbefore, hnone] at hfull
      | cons m' between =>
          obtain ⟨rfl, -⟩ := List.cons.inj hafter
          rw [hbefore, List.filterMap_append, List.filterMap_cons_some hb] at hnone
          exact absurd (List.append_eq_nil_iff.mp hnone).2 (List.cons_ne_nil _ _)
  · rintro ⟨before', rfl, hsplit, hrow, hfull⟩
    refine ⟨?_, hrow, ?_⟩
    · exact (drop_eq_append hle).trans (by rw [hsplit, List.append_assoc])
    · rwa [List.filterMap_append, hnone, List.nil_append]

theorem resumes_skip {q p : ℕ} (hle : q ≤ p) (hp : p ≤ l.length) :
    Resumes row next q ((l.drop q).take (p - q) ++ before) e after ↔
      Resumes row next p before e after := by
  have hlength : ((l.drop q).take (p - q)).length = p - q := by
    rw [List.length_take, List.length_drop]
    omega
  unfold Resumes
  rw [List.length_append, hlength, ← Nat.add_assoc, Nat.add_sub_cancel' hle]

theorem resumable_skip {q p : ℕ} (hle : q ≤ p) (hp : p ≤ l.length)
    (hnone : ((l.drop q).take (p - q)).filterMap row = []) :
    Resumable row limit next meets l q ↔ Resumable row limit next meets l p := by
  constructor
  · rintro ⟨hresumes, hends⟩
    refine ⟨fun before m e after h => ?_, hends.imp_right ?_⟩
    · exact (resumes_skip hle hp).mp
        (hresumes _ m e after ((boundary_skip hle hnone).mpr ⟨before, rfl, h⟩))
    · rintro ⟨before, m, e, after, h, hlast⟩
      obtain ⟨before', -, h⟩ := (boundary_skip hle hnone).mp h
      exact ⟨before', m, e, after, h, hlast⟩
  · rintro ⟨hresumes, hends⟩
    refine ⟨fun before m e after h => ?_, hends.imp_right ?_⟩
    · obtain ⟨before', rfl, hskip⟩ := (boundary_skip hle hnone).mp h
      exact (resumes_skip hle hp).mpr (hresumes before' m e after hskip)
    · rintro ⟨before, m, e, after, h, hlast⟩
      exact ⟨_, m, e, after, (boundary_skip hle hnone).mpr ⟨before, rfl, h⟩, hlast⟩

/-- Where the first page is resumed, the other boundaries are those of what comes after it. -/
theorem resumable_later {before₀ after₀ : List α} {m₀ e₀ : α} {p : ℕ}
    (hsplit : l.drop pos = before₀ ++ m₀ :: e₀ :: after₀) (hrow₀ : (row m₀).isSome)
    (hlength : ((before₀ ++ [m₀]).filterMap row).length = limit) (hnext : next e₀ = .resume p)
    (hlt : pos + before₀.length < p) :
    Resumable row limit next meets l pos ↔
      Resumable row limit next meets l (pos + before₀.length + 1) := by
  have hmove : ∀ between e after,
      Resumes row next pos (before₀ ++ m₀ :: between) e after ↔
        Resumes row next (pos + before₀.length + 1) between e after := by
    intro between e after
    unfold Resumes
    rw [List.length_append, List.length_cons,
      show pos + (before₀.length + (between.length + 1)) =
        pos + before₀.length + 1 + between.length by omega]
  constructor
  · rintro ⟨hresumes, hends⟩
    refine ⟨fun before m e after h => ?_, hends.imp_right ?_⟩
    · exact (hmove before e after).mp (hresumes _ m e after (boundary_later hsplit hlength h))
    · rintro ⟨before, m, e, after, h, hlast⟩
      obtain ⟨rfl, rfl, hafter⟩ | ⟨between, rfl, hlater⟩ := boundary_cases hsplit hrow₀ hlength h
      · rw [(List.cons.inj hafter).1, hlast] at hnext
        cases hnext
      · exact ⟨between, m, e, after, hlater, hlast⟩
  · rintro ⟨hresumes, hends⟩
    refine ⟨fun before m e after h => ?_, hends.imp_right ?_⟩
    · obtain ⟨rfl, rfl, hafter⟩ | ⟨between, rfl, hlater⟩ := boundary_cases hsplit hrow₀ hlength h
      · exact .inr ⟨p, (List.cons.inj hafter).1 ▸ hnext, hlt⟩
      · exact (hmove between e after).mpr (hresumes between m e after hlater)
    · rintro ⟨before, m, e, after, h, hlast⟩
      exact ⟨_, m, e, after, boundary_later hsplit hlength h, hlast⟩

theorem complete_iff_of_end {rows : List β} (hrows : rows.Perm ((l.drop pos).filterMap row))
    (hpage : pageAt row limit next meets l pos = if meets then some (rows, none) else none)
    (hnone : ∀ before m e after, ¬ Boundary row limit l pos before m e after) :
    Complete row limit next meets l pos ↔ Resumable row limit next meets l pos := by
  cases meets with
  | true =>
      rw [if_pos rfl] at hpage
      exact iff_of_true ((collect_last hpage).mpr hrows)
        ⟨fun _ _ _ _ h => absurd h (hnone _ _ _ _), .inl rfl⟩
  | false =>
      rw [if_neg (by decide)] at hpage
      refine iff_of_false (not_collect hpage) ?_
      rintro ⟨-, hmeets | ⟨_, _, _, _, h, -⟩⟩
      · cases hmeets
      · exact hnone _ _ _ _ h

section FullPage

variable (hsplit : l.drop pos = before ++ m :: e :: after) (hrow : (row m).isSome)
  (hlength : ((before ++ [m]).filterMap row).length = limit)
  (hpage : pageAt row limit next meets l pos =
    some ((next e).page ((before ++ [m]).filterMap row)))

include hsplit hrow hlength hpage

/-- No page follows, so that nothing must be left. -/
theorem complete_iff_of_last (hnext : next e = .last) :
    Complete row limit next meets l pos ↔ Resumable row limit next meets l pos := by
  have hfirst : Boundary row limit l pos before m e after := boundary_first hsplit hrow hlength
  rw [hnext] at hpage
  rw [Complete, collect_last hpage, filterMap_boundary hsplit]
  constructor
  · intro hperm
    have hnone : (e :: after).filterMap row = [] := by
      have := hperm.length_eq
      rw [List.length_append] at this
      exact List.length_eq_zero_iff.mp (by omega)
    refine ⟨fun before' m' e' after' h => ?_, .inr ⟨before, m, e, after, hfirst, hnext⟩⟩
    obtain ⟨rfl, rfl, hafter⟩ | ⟨between, rfl, hlater⟩ := boundary_cases hsplit hrow hlength h
    · exact .inl ⟨(List.cons.inj hafter).1 ▸ hnext, hafter ▸ hnone⟩
    · have hmem : m' ∈ e :: after := by
        rw [← drop_boundary hsplit, hlater.hsplit]
        simp
      obtain ⟨b, hb⟩ := Option.isSome_iff_exists.mp hlater.hrow
      rw [List.filterMap_eq_nil_iff.mp hnone m' hmem] at hb
      cases hb
  · rintro ⟨hresumes, -⟩
    obtain ⟨-, hnone⟩ | ⟨p, hresume, -⟩ := hresumes before m e after hfirst
    · rw [hnone, List.append_nil]
    · rw [hnext] at hresume; cases hresume

theorem complete_iff_of_resume (hlimit : 1 ≤ limit) (hnodup : (l.filterMap row).Nodup)
    (hskips : SkipsOnly row next l) {p : ℕ} (hnext : next e = .resume p)
    (hrest : pos + before.length < p → p ≤ l.length →
      (Complete row limit next meets l p ↔ Resumable row limit next meets l p)) :
    Complete row limit next meets l pos ↔ Resumable row limit next meets l pos := by
  rw [hnext] at hpage
  rw [Complete, collect_resume hpage, filterMap_boundary hsplit]
  simp only [List.perm_append_left_iff]
  obtain ⟨hp, hskip⟩ := hskips _ e p (getElem?_boundary hsplit) hnext
  by_cases hlt : pos + before.length < p
  · have hdrop : (e :: after).filterMap row = (l.drop p).filterMap row := by
      rw [← drop_boundary hsplit, drop_eq_append (hlt : pos + before.length + 1 ≤ p),
        List.filterMap_append, hskip hlt, List.nil_append]
    rw [hdrop, resumable_later hsplit hrow hlength hnext hlt,
      resumable_skip hlt hp (hskip hlt)]
    exact hrest hlt hp
  · refine iff_of_false ?_ ?_
    · rintro ⟨n, rest, hcollect, hperm⟩
      exact not_complete_of_back hlimit hnodup hsplit hrow (not_lt.mp hlt) hcollect hperm
    · rintro ⟨hresumes, -⟩
      obtain ⟨hlast, -⟩ | ⟨p', hresume, hlt'⟩ :=
        hresumes before m e after (boundary_first hsplit hrow hlength)
      · rw [hnext] at hlast; cases hlast
      · rw [hnext] at hresume
        cases hresume
        exact hlt hlt'

end FullPage

/-- The pages are complete exactly when each of them is resumed behind its last row. -/
theorem complete_iff (hlimit : 1 ≤ limit) (hnodup : (l.filterMap row).Nodup)
    (hskips : SkipsOnly row next l) (hpos : pos ≤ l.length) :
    Complete row limit next meets l pos ↔ Resumable row limit next meets l pos := by
  induction hk : l.length - pos using Nat.strong_induction_on generalizing pos with
  | _ k ih =>
  obtain ⟨hshort, hpage⟩ | ⟨before, m, after, hsplit, hrow, hlength, hend, hgo⟩ :=
    pageAt_cases next meets hlimit hpos
  · exact complete_iff_of_end (List.Perm.refl _) hpage fun _ _ _ _ => not_boundary hshort
  · cases after with
    | nil =>
        refine complete_iff_of_end (by rw [hsplit]) (hend rfl) fun before' m' e after h => ?_
        obtain ⟨-, -, hafter⟩ | ⟨between, -, h⟩ := boundary_cases hsplit hrow hlength h
        · cases hafter
        · have hnil := h.hsplit
          rw [drop_boundary hsplit] at hnil
          exact absurd hnil.symm (by simp)
    | cons e after =>
        have hpage := hgo e after rfl
        cases hnext : next e with
        | last => exact complete_iff_of_last hsplit hrow hlength hpage hnext
        | resume p =>
            refine complete_iff_of_resume hsplit hrow hlength hpage hlimit hnodup hskips hnext
              fun hlt hp => ?_
            have hle : pos + before.length + 1 ≤ l.length := by
              have := congrArg List.length hsplit
              simp only [List.length_drop, List.length_append, List.length_cons] at this
              omega
            exact ih (l.length - p) (by omega) hp rfl

end Paging
