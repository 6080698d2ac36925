import Xidata.ChainPlugin.ReversibleBlocks

/-!
What a recovery of reversible blocks saves.  A block is stored after it has been decoded, but
it is written to the file before.  So the table has the longest prefix of the old blocks that
is intact, and the file has more where it ends at a block that continues the numbers.
-/

namespace Xidata.ChainPlugin

open LinkedPrefix (IsLongest Linked taken taken_cons_of_pos taken_cons_of_neg)

variable {B : Type} {c : BlockCodec B} {truncateAtBlock : UInt32}
  {rows p : List ReversibleBlock} {s : BlockLoop} {prev : Option ReversibleBlock}

/-! ### What a recovery takes -/

/-- The loop of a recovery has not stopped at `a`, and `b` continues it. -/
def Reaches (truncateAtBlock : UInt32) (a b : ReversibleBlock) : Prop :=
  a.Follows b ∧ a.blocknum ≠ truncateAtBlock

instance (a b : ReversibleBlock) : Decidable (Reaches truncateAtBlock a b) :=
  inferInstanceAs (Decidable (_ ∧ _))

/-- A block that is recovered after `prev`. -/
def Recovers (c : BlockCodec B) (truncateAtBlock : UInt32) (prev : Option ReversibleBlock)
    (row : ReversibleBlock) : Prop :=
  (∀ q ∈ prev, Reaches truncateAtBlock q row) ∧ row.Decodes c

instance (prev : Option ReversibleBlock) (row : ReversibleBlock) :
    Decidable (Recovers c truncateAtBlock prev row) :=
  inferInstanceAs (Decidable (_ ∧ _))

/-- The bytes of the block that ends a recovery because it cannot be decoded. -/
def spilled (c : BlockCodec B) (truncateAtBlock : UInt32) :
    Option ReversibleBlock → List ReversibleBlock → List UInt8
  | _, [] => []
  | prev, row :: rest =>
    if Recovers c truncateAtBlock prev row then spilled c truncateAtBlock (some row) rest
    else if ∀ q ∈ prev, Reaches truncateAtBlock q row then row.packedblock
    else []

/-- The loop of a recovery has not stopped at the block before `rows`, and all blocks that are
recovered have lower numbers. -/
structure Recovering (truncateAtBlock : UInt32) (prev : Option ReversibleBlock)
    (rows : List ReversibleBlock) (s : BlockLoop) : Prop extends AtRows prev rows s where
  goesOn : ∀ q ∈ prev, q.blocknum ≠ truncateAtBlock
  fresh : ∀ t ∈ s.table, ∀ row ∈ rows, t.blocknum < row.blocknum

theorem Recovering.head {row : ReversibleBlock} {rest : List ReversibleBlock}
    (h : Recovering truncateAtBlock prev (row :: rest) s) :
    row.blocknum = s.last + 1 ↔ ∀ q ∈ prev, Reaches truncateAtBlock q row := by
  rw [h.next row rfl]
  exact forall₂_congr fun q hq => (and_iff_left (h.goesOn q hq)).symm

/-- The loop of a recovery after a block. -/
def BlockLoop.recovered (s : BlockLoop) (row : ReversibleBlock) : BlockLoop :=
  { s with
    file := s.file ++ row.packedblock
    table := s.table ++ [row]
    last := row.blocknum
    num := s.num + 1 }

theorem Recovering.step {row : ReversibleBlock} {rest : List ReversibleBlock}
    (h : Recovering truncateAtBlock prev (row :: rest) s) (hne : row.blocknum ≠ truncateAtBlock) :
    Recovering truncateAtBlock (some row) rest (s.recovered row) := by
  refine ⟨h.toAtRows.step rfl, ?_, fun t ht x hx => ?_⟩
  · rintro q ⟨⟩
    exact hne
  · rcases List.mem_append.mp ht with ht | ht
    · exact h.fresh t ht x (List.mem_cons_of_mem _ hx)
    · rw [List.mem_singleton.mp ht]
      exact (List.pairwise_cons.mp h.sorted).1 x hx

/-- Nothing is recovered after a block at which the loop stops. -/
theorem taken_of_stop {row : ReversibleBlock} (h : row.blocknum = truncateAtBlock)
    (rest : List ReversibleBlock) :
    taken (Recovers c truncateAtBlock) (some row) rest = [] ∧
      spilled c truncateAtBlock (some row) rest = [] := by
  match rest with
  | [] => exact ⟨rfl, rfl⟩
  | x :: rest =>
      have hstop : ¬ ∀ q ∈ some row, Reaches truncateAtBlock q x := fun hall => (hall row rfl).2 h
      have hnot : ¬ Recovers c truncateAtBlock (some row) x := fun hx => hstop hx.1
      exact ⟨taken_cons_of_neg hnot, by rw [spilled, if_neg hnot, if_neg hstop]⟩

/-- A block that is stored is recovered. -/
theorem recoverFrom_block {row : ReversibleBlock} {rest : List ReversibleBlock}
    (hnum : row.blocknum = s.last + 1) (hstored : row.Stored c)
    (hfresh : ∀ t ∈ s.table, t.blocknum < row.blocknum) :
    recoverFrom c truncateAtBlock (row :: rest) s =
      if row.blocknum = truncateAtBlock then s.recovered row
      else recoverFrom c truncateAtBlock rest (s.recovered row) := by
  obtain ⟨b, hunpack, hpack⟩ := hstored.unpack
  have hcreate : create s.table ⟨row.blocknum, c.pack b⟩ = some (s.table ++ [row]) := by
    rw [hpack]
    exact create_of_fresh hfresh
  rw [recoverFrom, if_neg (not_not.mpr hnum), hunpack]
  dsimp only
  rw [hcreate]
  rfl

theorem recoverFrom_eq (hstored : ∀ row ∈ rows, row.Decodes c → row.Stored c)
    (hs : Recovering truncateAtBlock prev rows s) :
    (recoverFrom c truncateAtBlock rows s).table =
        s.table ++ taken (Recovers c truncateAtBlock) prev rows ∧
      (recoverFrom c truncateAtBlock rows s).file =
        s.file ++ contents (taken (Recovers c truncateAtBlock) prev rows) ++
          spilled c truncateAtBlock prev rows := by
  induction rows generalizing prev s with
  | nil => simp [recoverFrom, taken, contents, spilled]
  | cons row rest ih =>
      rw [List.forall_mem_cons] at hstored
      by_cases hreach : ∀ q ∈ prev, Reaches truncateAtBlock q row
      · have hnum := hs.head.mpr hreach
        by_cases hdecodes : row.Decodes c
        · have hrecovers : Recovers c truncateAtBlock prev row := ⟨hreach, hdecodes⟩
          rw [recoverFrom_block hnum (hstored.1 hdecodes) (fun t ht => hs.fresh t ht row (by simp)),
            taken_cons_of_pos hrecovers, spilled, if_pos hrecovers, contents, List.flatMap_cons]
          by_cases hstop : row.blocknum = truncateAtBlock
          · obtain ⟨htaken, hspilled⟩ := taken_of_stop (c := c) hstop rest
            simp [BlockLoop.recovered, hstop, htaken, hspilled]
          · obtain ⟨htable, hfile⟩ := ih hstored.2 (hs.step hstop)
            rw [if_neg hstop, htable, hfile]
            simp [BlockLoop.recovered, contents]
        · have hnot : ¬ Recovers c truncateAtBlock prev row := fun h => hdecodes h.2
          rw [recoverFrom, if_neg (not_not.mpr hnum),
            ReversibleBlock.not_decodes_iff.mp hdecodes, taken_cons_of_neg hnot, spilled,
            if_neg hnot, if_pos hreach]
          simp [contents]
      · have hnot : ¬ Recovers c truncateAtBlock prev row := fun h => hreach h.1
        rw [recoverFrom, if_pos (mt hs.head.mp hreach), taken_cons_of_neg hnot, spilled,
          if_neg hnot, if_neg hreach]
        simp [contents]

theorem spilled_eq_nil_iff :
    spilled c truncateAtBlock prev rows = [] ↔
      ∀ row ∈ (rows.drop (taken (Recovers c truncateAtBlock) prev rows).length).head?,
        (∀ q ∈ (taken (Recovers c truncateAtBlock) prev rows).getLast?.or prev,
          Reaches truncateAtBlock q row) → row.packedblock = [] := by
  induction rows generalizing prev with
  | nil => simp [spilled]
  | cons row rest ih =>
      by_cases hrecovers : Recovers c truncateAtBlock prev row
      · rw [spilled, if_pos hrecovers, ih, taken_cons_of_pos hrecovers, List.length_cons,
          List.drop_succ_cons, List.getLast?_cons]
        cases (taken (Recovers c truncateAtBlock) (some row) rest).getLast? <;> rfl
      · rw [spilled, if_neg hrecovers, taken_cons_of_neg hrecovers]
        simp only [List.length_nil, List.drop_zero, List.head?_cons, Option.mem_some_iff,
          forall_eq', List.getLast?_nil, Option.none_or]
        by_cases hreach : ∀ q ∈ prev, Reaches truncateAtBlock q row
        · rw [if_pos hreach]
          exact ⟨fun hnil _ => hnil, fun h => h hreach⟩
        · rw [if_neg hreach]
          exact iff_of_true rfl fun h => absurd h hreach

/-! ### What is recovered and saved -/

theorem linked_recovers_iff (l : List ReversibleBlock) :
    Linked (Recovers c truncateAtBlock) none l ↔
      l.IsChain (Reaches truncateAtBlock) ∧ ∀ row ∈ l, row.Decodes c :=
  LinkedPrefix.linked_iff_isChain none l

/-- The loop goes on to the end of `p`, and the block after it is not one that continues it
and is written to the file before it turns out that it cannot be decoded. -/
structure StopsCleanly (truncateAtBlock : UInt32) (p rows : List ReversibleBlock) : Prop where
  goesOn : ∀ q ∈ p.dropLast, q.blocknum ≠ truncateAtBlock
  next : ∀ row ∈ (rows.drop p.length).head?,
    (∀ q ∈ p.getLast?, Reaches truncateAtBlock q row) → row.Within truncateAtBlock →
      row.packedblock = []

theorem Reaches.within {a b : ReversibleBlock} (h : Reaches truncateAtBlock a b)
    (ha : a.Within truncateAtBlock) : b.Within truncateAtBlock := by
  intro hpos
  have hle := UInt32.le_iff_toNat_le.mp (ha hpos)
  have hne : a.blocknum.toNat ≠ truncateAtBlock.toNat := fun heq => h.2 (UInt32.toNat_inj.mp heq)
  have hfollows : b.blocknum.toNat = a.blocknum.toNat + 1 := h.1
  rw [UInt32.le_iff_toNat_le]
  omega

theorem within_of_isChain {l : List ReversibleBlock}
    (hfirst : ∀ row ∈ l.head?, row.Within truncateAtBlock)
    (hchain : l.IsChain (Reaches truncateAtBlock)) : ∀ row ∈ l, row.Within truncateAtBlock := by
  induction l with
  | nil => simp
  | cons a l ih =>
      obtain ⟨hreaches, hchain⟩ := List.isChain_cons.mp hchain
      have ha := hfirst a rfl
      exact List.forall_mem_cons.mpr ⟨ha, ih (fun b hb => (hreaches b hb).within ha) hchain⟩

theorem taken_eq_iff (hp : IsLongest (Intact c truncateAtBlock) p rows)
    (hfirst : ∀ row ∈ rows.head?, row.Within truncateAtBlock) :
    taken (Recovers c truncateAtBlock) none rows = p ↔
      ∀ q ∈ p.dropLast, q.blocknum ≠ truncateAtBlock := by
  have hsplit := LinkedPrefix.isChain_and_left (R := ReversibleBlock.Follows)
    (P := fun a => a.blocknum ≠ truncateAtBlock)
  have htaken := LinkedPrefix.isLongest_taken (r := Recovers c truncateAtBlock) none rows
  obtain ⟨hchain, hdecodes⟩ := (linked_recovers_iff _).mp htaken.holds
  constructor
  · rintro rfl
    exact ((hsplit _).mp hchain).2
  · intro hgoesOn
    have hle : p <+: taken (Recovers c truncateAtBlock) none rows :=
      htaken.longest p hp.isPrefix ((linked_recovers_iff p).mpr
        ⟨(hsplit p).mpr ⟨hp.holds.consecutive, hgoesOn⟩, hp.holds.decodes⟩)
    have hwithin : ∀ row ∈ taken (Recovers c truncateAtBlock) none rows,
        row.Within truncateAtBlock :=
      within_of_isChain
        (fun row hrow => hfirst row (LinkedPrefix.mem_head?_of_isPrefix htaken.isPrefix hrow))
        hchain
    have hge := hp.longest _ htaken.isPrefix ⟨((hsplit _).mp hchain).1, hdecodes, hwithin⟩
    exact hge.eq_of_length_le hle.length_le

/-- The block after `p` can only be one within the truncation if the loop reaches it. -/
theorem within_next (hp : IsLongest (Intact c truncateAtBlock) p rows)
    (hfirst : ∀ row ∈ rows.head?, row.Within truncateAtBlock) {row : ReversibleBlock}
    (hrow : row ∈ (rows.drop p.length).head?)
    (hreaches : ∀ q ∈ p.getLast?, Reaches truncateAtBlock q row) :
    row.Within truncateAtBlock := by
  match hlast : p.getLast? with
  | none =>
      rw [List.getLast?_eq_none_iff.mp hlast] at hrow
      exact hfirst row hrow
  | some q => exact (hreaches q hlast).within (hp.holds.within q (List.mem_of_getLast? hlast))

/-- A recovery that is cut off before its first block. -/
theorem eq_nil_of_cut (hp : IsLongest (Intact c truncateAtBlock) p rows)
    (hcut : 0 < truncateAtBlock ∧ truncateAtBlock < (BlockLoop.init rows).start) :
    p = [] ∧ ∀ row ∈ rows.head?, ¬ row.Within truncateAtBlock := by
  have hnot : ∀ row ∈ rows.head?, ¬ row.Within truncateAtBlock := by
    intro row hrow hwithin
    obtain ⟨rest, rfl⟩ := List.head?_eq_some_iff.mp hrow
    exact absurd (hwithin hcut.1) (UInt32.not_le.mpr hcut.2)
  have hnil : p = [] := LinkedPrefix.eq_nil_of_isPrefix hp.isPrefix fun row hrow hmem =>
    hnot row hrow (hp.holds.within row hmem)
  exact ⟨hnil, hnot⟩

/-- The new table and the file both have the longest prefix of the old blocks that is intact,
and the file is imported to this table, exactly if the loop stops cleanly after the prefix. -/
theorem recover_saves_iff (old : ReversibleTable c) (truncateAtBlock : UInt32)
    {p : List ReversibleBlock} (hp : IsLongest (Intact c truncateAtBlock) p old.rows) :
    let out := recoverReversibleBlocks c old.rows truncateAtBlock
    (out.table = p ∧ out.file = contents p ∧
        (importReversibleBlocks c out.file).table = p) ↔
      StopsCleanly truncateAtBlock p old.rows := by
  intro out
  have himport : (importReversibleBlocks c (contents p)).table = p :=
    (import_contents hp.holds.consecutive (old.sorted.sublist hp.isPrefix.sublist)
      (stored_of_isPrefix old hp.isPrefix hp.holds.decodes)).1
  by_cases hcut : 0 < truncateAtBlock ∧ truncateAtBlock < (BlockLoop.init old.rows).start
  · obtain ⟨rfl, hnot⟩ := eq_nil_of_cut hp hcut
    have hout : out = BlockLoop.init old.rows := if_pos hcut
    rw [hout, init_table, init_file]
    exact iff_of_true ⟨rfl, rfl, himport⟩
      ⟨by simp, fun row hrow _ hwithin => absurd hwithin (hnot row hrow)⟩
  · have hfirst : ∀ row ∈ old.rows.head?, row.Within truncateAtBlock := by
      intro row hrow hpos
      obtain ⟨rest, hrows⟩ := List.head?_eq_some_iff.mp hrow
      rw [hrows] at hcut
      exact UInt32.not_lt.mp fun hlt => hcut ⟨hpos, hlt⟩
    have hout : out = recoverFrom c truncateAtBlock old.rows (BlockLoop.init old.rows) :=
      if_neg hcut
    have hstart : Recovering truncateAtBlock none old.rows (BlockLoop.init old.rows) :=
      ⟨atRows_init old, by simp, by simp [init_table]⟩
    obtain ⟨htable, hfile⟩ := recoverFrom_eq old.sound hstart
    rw [init_table, List.nil_append] at htable
    rw [init_file, List.nil_append] at hfile
    rw [hout, htable, hfile]
    constructor
    · rintro ⟨htaken, hcontents, -⟩
      rw [htaken] at hcontents
      have hspilled := List.append_cancel_left (hcontents.trans (List.append_nil _).symm)
      rw [spilled_eq_nil_iff, htaken] at hspilled
      refine ⟨(taken_eq_iff hp hfirst).mp htaken, fun row hrow hreaches _ => ?_⟩
      exact hspilled row hrow (by rwa [Option.or_none])
    · intro hstops
      have htaken := (taken_eq_iff hp hfirst).mpr hstops.goesOn
      have hspilled : spilled c truncateAtBlock none old.rows = [] := by
        rw [spilled_eq_nil_iff, htaken]
        intro row hrow hreaches
        rw [Option.or_none] at hreaches
        exact hstops.next row hrow hreaches (within_next hp hfirst hrow hreaches)
      rw [htaken, hspilled, List.append_nil]
      exact ⟨rfl, rfl, himport⟩

theorem recover_saves_gap :
    let p := intactPrefix sampleCodec 0 gapTable.rows
    let out := recoverReversibleBlocks sampleCodec gapTable.rows 0
    out.table = p ∧ out.file = contents p ∧
      (importReversibleBlocks sampleCodec out.file).table = p :=
  (recover_saves_iff gapTable 0 (isLongest_intactPrefix 0 gapTable.rows)).mpr
    ⟨by decide, by decide⟩

/-- The second block cannot be decoded. -/
def spillingTable : ReversibleTable sampleCodec where
  rows := [⟨1, [1, 1]⟩, ⟨2, [0]⟩]
  sorted := by decide
  sound := by
    simp only [List.forall_mem_cons]
    exact ⟨fun _ => ⟨1, rfl, rfl⟩, fun h => absurd h (by decide), by simp⟩

/-- The bytes of a block that cannot be decoded are in the file. -/
theorem recover_spills :
    let p := intactPrefix sampleCodec 0 spillingTable.rows
    let out := recoverReversibleBlocks sampleCodec spillingTable.rows 0
    IsLongest (Intact sampleCodec 0) p spillingTable.rows ∧ out.table = p ∧
      out.file = contents p ++ [0] ∧ out.file ≠ contents p :=
  ⟨isLongest_intactPrefix 0 spillingTable.rows, by decide⟩

end Xidata.ChainPlugin
