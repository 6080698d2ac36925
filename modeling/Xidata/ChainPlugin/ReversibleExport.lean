import Xidata.ChainPlugin.ReversibleBlocks

/-!
What an export of reversible blocks writes, and that it can be imported again.  The verdict of
an export is made from three counters, which always agree on what has been written.
-/

namespace Xidata.ChainPlugin

open LinkedPrefix (IsLongest taken taken_cons_of_pos taken_cons_of_neg)

variable {B : Type} {c : BlockCodec B} {rows p : List ReversibleBlock}
  {s : BlockLoop} {prev : Option ReversibleBlock}

/-! ### What is exported -/

theorem within_zero (row : ReversibleBlock) : row.Within 0 :=
  fun h => absurd h (UInt32.lt_irrefl 0)

theorem exportFrom_eq (hs : AtRows prev rows s) :
    exportFrom c rows s =
      let p := taken (Continues c 0) prev rows
      { s with
        file := s.file ++ contents p
        last := (p.getLast?.map ReversibleBlock.blocknum).getD s.last
        num := s.num + UInt32.ofNat p.length } := by
  induction rows generalizing prev s with
  | nil => simp [exportFrom, taken, contents]
  | cons row rest ih =>
      by_cases hfollows : ∀ q ∈ prev, q.Follows row
      · have hnum := (hs.next row rfl).mpr hfollows
        by_cases hdecodes : row.Decodes c
        · have hcontinues : Continues c 0 prev row := ⟨hfollows, hdecodes, within_zero row⟩
          obtain ⟨x, hunpack⟩ := Option.isSome_iff_exists.mp hdecodes
          rw [exportFrom, if_neg (not_not.mpr hnum), hunpack, taken_cons_of_pos hcontinues]
          refine (ih (hs.step rfl)).trans ?_
          generalize taken (Continues c 0) (some row) rest = p
          have hcount : s.num + 1 + UInt32.ofNat p.length =
              s.num + UInt32.ofNat (row :: p).length := by
            rw [List.length_cons, UInt32.ofNat_add, UInt32.add_assoc, UInt32.add_comm 1]
            rfl
          have hlast : (p.getLast?.map ReversibleBlock.blocknum).getD row.blocknum =
              ((row :: p).getLast?.map ReversibleBlock.blocknum).getD s.last := by
            rw [List.getLast?_cons]
            cases p.getLast? <;> rfl
          dsimp only
          rw [hcount, hlast, contents, contents, List.flatMap_cons, List.append_assoc]
        · have hnot : ¬ Continues c 0 prev row := fun h => hdecodes h.2.1
          rw [exportFrom, if_neg (not_not.mpr hnum),
            ReversibleBlock.not_decodes_iff.mp hdecodes, taken_cons_of_neg hnot]
          simp [contents]
      · have hnot : ¬ Continues c 0 prev row := fun h => hfollows h.1
        rw [exportFrom, if_pos (mt (hs.next row rfl).mp hfollows), taken_cons_of_neg hnot]
        simp [contents]

theorem toNat_getLast {row q : ReversibleBlock} {l : List ReversibleBlock}
    (hchain : (row :: l).IsChain ReversibleBlock.Follows) (hq : q ∈ (row :: l).getLast?) :
    q.blocknum.toNat = row.blocknum.toNat + l.length := by
  induction l generalizing row with
  | nil =>
      obtain rfl : row = q := by simpa using hq
      rfl
  | cons a l ih =>
      rw [List.isChain_cons_cons] at hchain
      rw [List.getLast?_cons_cons] at hq
      have hfollows : a.blocknum.toNat = row.blocknum.toNat + 1 := hchain.1
      rw [ih hchain.2 hq, hfollows, List.length_cons]
      omega

theorem export_eq (old : ReversibleTable c) :
    exportReversibleBlocks c old.rows =
      { num := UInt32.ofNat (intactPrefix c 0 old.rows).length
        start := (BlockLoop.init old.rows).start
        last := ((intactPrefix c 0 old.rows).getLast?.map ReversibleBlock.blocknum).getD
          (BlockLoop.init old.rows).last
        file := contents (intactPrefix c 0 old.rows) } := by
  have hnum : (BlockLoop.init old.rows).num = 0 := by cases old.rows <;> rfl
  rw [exportReversibleBlocks, exportFrom_eq (atRows_init old), ← intactPrefix]
  dsimp only
  rw [hnum, init_table, init_file, UInt32.zero_add, List.nil_append]

theorem exported_of_isChain {row q : ReversibleBlock} {l : List ReversibleBlock}
    (hchain : (row :: l).IsChain ReversibleBlock.Follows) (hq : q ∈ (row :: l).getLast?) :
    row.blocknum ≤ q.blocknum ∧
      q.blocknum - row.blocknum + 1 = UInt32.ofNat (row :: l).length := by
  have hlast := toNat_getLast hchain hq
  have hle : row.blocknum ≤ q.blocknum := UInt32.le_iff_toNat_le.mpr (by omega)
  refine ⟨hle, UInt32.toNat_inj.mp ?_⟩
  rw [UInt32.toNat_add, UInt32.toNat_sub_of_le _ _ hle, UInt32.toNat_one, UInt32.toNat_ofNat',
    List.length_cons, hlast, Nat.add_sub_cancel_left]

/-- The verdict does not tell a table that is cut short from a whole one: it only tells whether
a block has been written. -/
theorem exported_iff (old : ReversibleTable c) :
    (exportReversibleBlocks c old.rows).exported = true ↔
      UInt32.ofNat (intactPrefix c 0 old.rows).length ≠ 0 := by
  have hp := isLongest_intactPrefix (c := c) 0 old.rows
  rw [export_eq, BlockLoop.exported]
  dsimp only
  match hpre : intactPrefix c 0 old.rows with
  | [] => simp
  | row :: l =>
      rw [hpre] at hp
      obtain ⟨more, hrows⟩ := hp.isPrefix
      have hstart : (BlockLoop.init old.rows).start = row.blocknum := by
        rw [← hrows]
        rfl
      obtain ⟨q, hq⟩ : ∃ q, (row :: l).getLast? = some q := ⟨_, List.getLast?_cons⟩
      obtain ⟨hle, hcount⟩ := exported_of_isChain hp.holds.consecutive hq
      rw [hstart, hq, Option.map_some, Option.getD_some]
      by_cases hzero : UInt32.ofNat (row :: l).length = 0
      · rw [if_pos hzero]
        exact iff_of_false Bool.false_ne_true (not_not.mpr hzero)
      · rw [if_neg hzero]
        exact iff_of_true (decide_eq_true ⟨hle, hcount⟩) hzero

theorem export_file (old : ReversibleTable c) :
    (exportReversibleBlocks c old.rows).file = contents (intactPrefix c 0 old.rows) :=
  congrArg BlockLoop.file (export_eq old)

/-- The file of a whole table is imported again, and with success unless the table is empty or
its last block has the number 0, which stands for none. -/
theorem import_whole (old : ReversibleTable c) (hwhole : Intact c 0 old.rows) :
    importReversibleBlocks c (contents old.rows) =
      ⟨old.rows, .ok (old.rows.getLast?.any fun q => q.blocknum ≠ 0)⟩ := by
  obtain ⟨htable, hresult⟩ := import_contents hwhole.consecutive old.sorted
    (stored_of_isPrefix old (List.prefix_refl _) hwhole.decodes)
  exact Import.ext htable hresult

/-- There are no more blocks than numbers. -/
theorem length_le_of_sorted (hsorted : rows.Pairwise fun a b => a.blocknum < b.blocknum) :
    ∀ row ∈ rows.head?, row.blocknum.toNat + rows.length ≤ 2 ^ 32 := by
  induction rows with
  | nil => simp
  | cons a l ih =>
      rintro row ⟨⟩
      obtain ⟨ha, hl⟩ := List.pairwise_cons.mp hsorted
      match l with
      | [] => exact a.blocknum.toNat_lt
      | b :: l =>
          have hb := ih hl b rfl
          have hlt := UInt32.lt_iff_toNat_lt.mp (ha b (by simp))
          rw [List.length_cons]
          omega

theorem ReversibleTable.length_le (old : ReversibleTable c) : old.rows.length ≤ 2 ^ 32 := by
  match hrows : old.rows with
  | [] => exact Nat.zero_le _
  | row :: rest =>
      have hle := length_le_of_sorted (hrows ▸ old.sorted) row rfl
      omega

theorem ofNat_length_ne_zero_iff {n : ℕ} (h : n < 2 ^ 32) : UInt32.ofNat n ≠ 0 ↔ n ≠ 0 := by
  rw [Ne, ← UInt32.toNat_inj, UInt32.toNat_ofNat', Nat.mod_eq_of_lt h]
  rfl

/-- The counter tells whether all blocks have been written if none of some have, or if all of
some have and it has not come back to 0. -/
theorem verdict_iff (hpre : p <+: rows) (hlength : rows.length ≤ 2 ^ 32) :
    (UInt32.ofNat p.length ≠ 0 ↔ p = rows) ↔
      rows ≠ [] ∧ (p = [] ∨ p = rows ∧ rows.length < 2 ^ 32) := by
  rw [← List.length_pos_iff]
  by_cases hwhole : p = rows
  · rw [hwhole, iff_true_intro (Eq.refl rows), iff_true, true_and, ← List.length_eq_zero_iff]
    constructor
    · intro hne
      have hlast : rows.length ≠ 2 ^ 32 := fun heq => hne (by rw [heq]; rfl)
      have hzero : rows.length ≠ 0 := fun heq => hne (by rw [heq]; rfl)
      omega
    · rintro ⟨hpos, hless⟩
      exact (ofNat_length_ne_zero_iff (by omega)).mpr (by omega)
  · have hlt : p.length < rows.length :=
      lt_of_le_of_ne hpre.length_le fun heq => hwhole (hpre.eq_of_length heq)
    rw [ofNat_length_ne_zero_iff (by omega), iff_false_intro hwhole, iff_false, not_not,
      false_and, or_false, List.length_eq_zero_iff]
    exact (and_iff_right (by omega)).symm

theorem import_whole_iff (old : ReversibleTable c) (hwhole : Intact c 0 old.rows) :
    importReversibleBlocks c (contents old.rows) = ⟨old.rows, .ok true⟩ ↔
      ∃ q ∈ old.rows.getLast?, q.blocknum ≠ 0 := by
  rw [import_whole old hwhole]
  simp [Option.any_eq_true]

/-- What is intact before a block that cannot be decoded, and what comes after nothing intact. -/
theorem eq_nil_iff_of_isLongest (hp : IsLongest (Intact c 0) p rows) :
    p = [] ↔ ∀ row ∈ rows.head?, ¬ row.Decodes c := by
  constructor
  · rintro rfl row hrow hdecodes
    obtain ⟨rest, rfl⟩ := List.head?_eq_some_iff.mp hrow
    have hone : Intact c 0 [row] :=
      ⟨List.isChain_singleton row, by simpa using hdecodes, by simpa using within_zero row⟩
    have hle := (hp.longest [row] ⟨rest, rfl⟩ hone).length_le
    exact Nat.not_succ_le_zero _ hle
  · exact fun hnot => LinkedPrefix.eq_nil_of_isPrefix hp.isPrefix fun row hrow hmem =>
      hnot row hrow (hp.holds.decodes row hmem)

/-- An export writes the longest prefix that is intact.  That it reports success exactly for a
whole table, and that such a table is imported again with success, is so if nothing can be
written of the blocks that there are, or if the table is whole, has less blocks than the counter
can count and does not only have a block with the number 0. -/
theorem export_import_iff (old : ReversibleTable c) {p : List ReversibleBlock}
    (hp : IsLongest (Intact c 0) p old.rows) :
    let out := exportReversibleBlocks c old.rows
    (out.file = contents p ∧ (out.exported = true ↔ p = old.rows) ∧
        (Intact c 0 old.rows → importReversibleBlocks c out.file = ⟨old.rows, .ok true⟩)) ↔
      (∃ row ∈ old.rows.head?, ¬ row.Decodes c) ∨
        Intact c 0 old.rows ∧ old.rows.length < 2 ^ 32 ∧
          ∃ q ∈ old.rows.getLast?, q.blocknum ≠ 0 := by
  intro out
  have hpre : intactPrefix c 0 old.rows = p := (isLongest_intactPrefix 0 old.rows).unique hp
  have hfile : out.file = contents p := hpre ▸ export_file old
  have hverdict : out.exported = true ↔ UInt32.ofNat p.length ≠ 0 := hpre ▸ exported_iff old
  rw [hfile, hverdict, verdict_iff hp.isPrefix old.length_le]
  constructor
  · rintro ⟨-, ⟨hne, hnil | ⟨hwhole, hless⟩⟩, himport⟩
    · obtain ⟨row, rest, hrows⟩ := List.exists_cons_of_ne_nil hne
      have hrow : row ∈ old.rows.head? := by rw [hrows]; rfl
      exact .inl ⟨row, hrow, (eq_nil_iff_of_isLongest hp).mp hnil row hrow⟩
    · have hintact := hp.eq_iff.mp hwhole
      rw [hwhole] at himport
      exact .inr ⟨hintact, hless, (import_whole_iff old hintact).mp (himport hintact)⟩
  · rintro (⟨row, hrow, hnot⟩ | ⟨hintact, hless, q, hq, hnum⟩)
    · have hnil : p = [] := (eq_nil_iff_of_isLongest hp).mpr fun x hx => by
        rw [Option.mem_unique hx hrow]
        exact hnot
      have hne : old.rows ≠ [] := List.ne_nil_of_mem (List.mem_of_mem_head? hrow)
      refine ⟨rfl, ⟨hne, .inl hnil⟩, fun hintact => ?_⟩
      exact absurd (hintact.decodes row (List.mem_of_mem_head? hrow)) hnot
    · have hwhole := hp.eq_iff.mpr hintact
      have hne : old.rows ≠ [] := List.ne_nil_of_mem (List.mem_of_getLast? hq)
      refine ⟨rfl, ⟨hne, .inr ⟨hwhole, hless⟩⟩, fun _ => ?_⟩
      rw [hwhole]
      exact (import_whole_iff old hintact).mpr ⟨q, hq, hnum⟩

def wholeTable : ReversibleTable sampleCodec where
  rows := [⟨1, [1, 1]⟩, ⟨2, [1, 2]⟩]
  sorted := by decide
  sound := by
    simp only [List.forall_mem_cons]
    exact ⟨fun _ => ⟨1, rfl, rfl⟩, fun _ => ⟨2, rfl, rfl⟩, by simp⟩

theorem export_import_two :
    let out := exportReversibleBlocks sampleCodec wholeTable.rows
    (out.exported = true ↔ intactPrefix sampleCodec 0 wholeTable.rows = wholeTable.rows) ∧
      importReversibleBlocks sampleCodec out.file = ⟨wholeTable.rows, .ok true⟩ := by
  have hwhole : Intact sampleCodec 0 wholeTable.rows :=
    (isLongest_intactPrefix 0 wholeTable.rows).eq_iff.mp (by decide)
  have hmeets := (export_import_iff wholeTable (isLongest_intactPrefix 0 wholeTable.rows)).mpr
    (.inr ⟨hwhole, by decide, by decide⟩)
  exact ⟨hmeets.2.1, hmeets.2.2 hwhole⟩

def emptyTable : ReversibleTable sampleCodec where
  rows := []
  sorted := .nil
  sound := by simp

/-- An empty table is not exported with success, nor is its file imported with success; a table
that is cut short at a gap is. -/
theorem export_verdict_fails :
    (intactPrefix sampleCodec 0 emptyTable.rows = emptyTable.rows ∧
      (exportReversibleBlocks sampleCodec emptyTable.rows).exported = false ∧
      importReversibleBlocks sampleCodec
        (exportReversibleBlocks sampleCodec emptyTable.rows).file = ⟨[], .ok false⟩) ∧
    intactPrefix sampleCodec 0 gapTable.rows ≠ gapTable.rows ∧
      (exportReversibleBlocks sampleCodec gapTable.rows).exported = true := by
  refine ⟨⟨by decide, by decide, ?_⟩, by decide, by decide⟩
  rw [importReversibleBlocks, importFrom, if_pos (by decide)]
  rfl

end Xidata.ChainPlugin
