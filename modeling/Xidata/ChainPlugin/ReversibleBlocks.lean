import Mathlib.Data.UInt
import Xidata.Library.LinkedPrefix

/-!
The reversible blocks of a node, which are recovered into a new table and a portable file,
exported into such a file and imported from one.  Each of the three goes over the blocks and
stops at the first one that does not continue the numbers before it or cannot be decoded.
The encoding of blocks is outside.  What is unpacked from the memory of a block or from a
file may differ where there is no block.
-/

namespace Xidata.ChainPlugin

/-- A block that is read from a file takes some of it, and a packed block is read back
whatever comes after it. -/
structure BlockCodec (B : Type) where
  pack : B → List UInt8
  unpack : List UInt8 → Option (B × List UInt8)
  read : List UInt8 → Option (B × List UInt8)
  blockNum : B → UInt32
  pack_ne_nil : ∀ b, pack b ≠ []
  unpack_pack : ∀ b rest, unpack (pack b ++ rest) = some (b, rest)
  read_pack : ∀ b rest, read (pack b ++ rest) = some (b, rest)
  read_lt : ∀ bytes b rest, read bytes = some (b, rest) → rest.length < bytes.length

structure ReversibleBlock where
  blocknum : UInt32
  packedblock : List UInt8
  deriving DecidableEq

variable {B : Type} (c : BlockCodec B)

/-- The packed block can be decoded. -/
def ReversibleBlock.Decodes (row : ReversibleBlock) : Prop := (c.unpack row.packedblock).isSome

instance (row : ReversibleBlock) : Decidable (row.Decodes c) :=
  inferInstanceAs (Decidable (_ = _))

/-- The table in the order of the block numbers.  A row whose block can be decoded is what has
been stored for this block. -/
structure ReversibleTable where
  rows : List ReversibleBlock
  sorted : rows.Pairwise fun a b => a.blocknum < b.blocknum
  sound : ∀ row ∈ rows, row.Decodes c →
    ∃ b, row.packedblock = c.pack b ∧ row.blocknum = c.blockNum b

/-- There is one row for a number. -/
def create (table : List ReversibleBlock) (row : ReversibleBlock) :
    Option (List ReversibleBlock) :=
  if table.any (·.blocknum = row.blocknum) then none else some (table ++ [row])

/-! ### Recovery -/

/-- The variables of a loop over blocks, `last` being the last block number so far, and the
table and the file that are written. -/
structure BlockLoop where
  num : UInt32 := 0
  start : UInt32 := 0
  last : UInt32 := 0
  table : List ReversibleBlock := []
  file : List UInt8 := []

/-- The loop is about to begin at the first of the blocks. -/
def BlockLoop.init (rows : List ReversibleBlock) : BlockLoop :=
  match rows with
  | [] => {}
  | itr :: _ => { start := itr.blocknum, last := itr.blocknum - 1 }

/-- A block is written to the file before it is decoded and stored. -/
def recoverFrom (truncateAtBlock : UInt32) : List ReversibleBlock → BlockLoop → BlockLoop
  | [], s => s
  | itr :: rest, s =>
    if itr.blocknum ≠ s.last + 1 then s
    else
      let s : BlockLoop := { s with file := s.file ++ itr.packedblock }
      match c.unpack itr.packedblock with
      | none => s
      | some (block, _) =>
        match create s.table ⟨itr.blocknum, c.pack block⟩ with
        | none => s
        | some table =>
          let s : BlockLoop := { s with table := table, last := itr.blocknum, num := s.num + 1 }
          if s.last = truncateAtBlock then s else recoverFrom truncateAtBlock rest s

def recoverReversibleBlocks (rows : List ReversibleBlock) (truncateAtBlock : UInt32) : BlockLoop :=
  let s := BlockLoop.init rows
  if 0 < truncateAtBlock ∧ truncateAtBlock < s.start then s
  else recoverFrom c truncateAtBlock rows s

/-! ### Import -/

/-- The table that an import leaves, and what it returns; a gap between the blocks is thrown. -/
@[ext] structure Import where
  table : List ReversibleBlock
  result : Except Unit Bool
  deriving DecidableEq

/-- How the loop of an import ends: at the end of the file or at an exception that is caught,
or at a gap. -/
def BlockLoop.imported (s : BlockLoop) : Import where
  table := s.table
  result := .ok (¬ (s.num = 0 ∨ s.last ≠ s.num))

def importFrom (bytes : List UInt8) (s : BlockLoop) : Import :=
  if bytes = [] then s.imported
  else
    match _h : c.read bytes with
    | none => s.imported
    | some (tmp, rest) =>
      let s : BlockLoop := { s with num := c.blockNum tmp }
      if s.start ≠ 0 ∧ s.num ≠ s.last + 1 then { table := s.table, result := .error () }
      else
        let s : BlockLoop := { s with start := if s.start = 0 then s.num else s.start }
        match create s.table ⟨s.num, c.pack tmp⟩ with
        | none => s.imported
        | some table => importFrom rest { s with table := table, last := s.num }
  termination_by bytes.length
  decreasing_by exact c.read_lt bytes tmp rest _h

/-- The table is new. -/
def importReversibleBlocks (file : List UInt8) : Import := importFrom c file {}

/-! ### Export -/

/-- A block is decoded before it is written to the file. -/
def exportFrom : List ReversibleBlock → BlockLoop → BlockLoop
  | [], s => s
  | itr :: rest, s =>
    if itr.blocknum ≠ s.last + 1 then s
    else
      match c.unpack itr.packedblock with
      | none => s
      | some _ =>
        exportFrom rest
          { s with file := s.file ++ itr.packedblock, last := itr.blocknum, num := s.num + 1 }

/-- What is returned at the end of an export. -/
def BlockLoop.exported (s : BlockLoop) : Bool :=
  if s.num = 0 then false else s.start ≤ s.last ∧ s.last - s.start + 1 = s.num

def exportReversibleBlocks (rows : List ReversibleBlock) : BlockLoop :=
  exportFrom c rows (BlockLoop.init rows)

/-! ### Intact blocks -/

open LinkedPrefix (IsLongest Linked taken)

namespace ReversibleBlock

def Follows (a b : ReversibleBlock) : Prop := b.blocknum.toNat = a.blocknum.toNat + 1

instance (a b : ReversibleBlock) : Decidable (a.Follows b) := inferInstanceAs (Decidable (_ = _))

/-- No truncation is asked for by the number 0. -/
def Within (truncateAtBlock : UInt32) (row : ReversibleBlock) : Prop :=
  0 < truncateAtBlock → row.blocknum ≤ truncateAtBlock

instance (truncateAtBlock : UInt32) (row : ReversibleBlock) :
    Decidable (row.Within truncateAtBlock) :=
  inferInstanceAs (Decidable (_ → _))

/-- A block that is stored with its number. -/
def Stored (row : ReversibleBlock) : Prop :=
  ∃ b, row.packedblock = c.pack b ∧ row.blocknum = c.blockNum b

end ReversibleBlock

/-- Blocks with consecutive numbers that can be decoded, none of them above a truncation. -/
structure Intact (truncateAtBlock : UInt32) (rows : List ReversibleBlock) : Prop where
  consecutive : rows.IsChain ReversibleBlock.Follows
  decodes : ∀ row ∈ rows, row.Decodes c
  within : ∀ row ∈ rows, row.Within truncateAtBlock

/-- A block that may come after `prev` in an intact table. -/
def Continues (truncateAtBlock : UInt32) (prev : Option ReversibleBlock) (row : ReversibleBlock) :
    Prop :=
  (∀ q ∈ prev, q.Follows row) ∧ row.Decodes c ∧ row.Within truncateAtBlock

instance (truncateAtBlock : UInt32) (prev : Option ReversibleBlock) (row : ReversibleBlock) :
    Decidable (Continues c truncateAtBlock prev row) :=
  inferInstanceAs (Decidable (_ ∧ _))

/-- The longest prefix that is intact. -/
def intactPrefix (truncateAtBlock : UInt32) (rows : List ReversibleBlock) : List ReversibleBlock :=
  taken (Continues c truncateAtBlock) none rows

/-- What a file has that has exactly these blocks. -/
def contents (rows : List ReversibleBlock) : List UInt8 := rows.flatMap (·.packedblock)

variable {c} {truncateAtBlock : UInt32} {rows p : List ReversibleBlock} {s : BlockLoop}
  {prev : Option ReversibleBlock}

theorem intact_iff (l : List ReversibleBlock) :
    Linked (Continues c truncateAtBlock) none l ↔ Intact c truncateAtBlock l := by
  refine (LinkedPrefix.linked_iff_isChain none l).trans ⟨fun h => ?_, fun h => ?_⟩
  · exact ⟨h.1, fun row hrow => (h.2 row hrow).1, fun row hrow => (h.2 row hrow).2⟩
  · exact ⟨h.consecutive, fun row hrow => ⟨h.decodes row hrow, h.within row hrow⟩⟩

theorem isLongest_intactPrefix (truncateAtBlock : UInt32) (rows : List ReversibleBlock) :
    IsLongest (Intact c truncateAtBlock) (intactPrefix c truncateAtBlock rows) rows :=
  (LinkedPrefix.isLongest_taken none rows).congr intact_iff

theorem follows_iff {a b : ReversibleBlock} (h : a.blocknum < b.blocknum) :
    b.blocknum = a.blocknum + 1 ↔ a.Follows b := by
  have hlt := UInt32.lt_iff_toNat_lt.mp h
  have hbound := b.blocknum.toNat_lt
  rw [ReversibleBlock.Follows, ← UInt32.toNat_inj, UInt32.toNat_add, UInt32.toNat_one]
  omega

theorem create_of_fresh {table : List ReversibleBlock} {row : ReversibleBlock}
    (h : ∀ t ∈ table, t.blocknum < row.blocknum) : create table row = some (table ++ [row]) := by
  rw [create, if_neg]
  simp only [List.any_eq_true, decide_eq_true_eq, not_exists, not_and]
  exact fun t ht heq => absurd (heq ▸ h t ht) (UInt32.lt_irrefl _)

/-- What can be decoded is decoded to what is stored. -/
theorem ReversibleBlock.Stored.unpack {row : ReversibleBlock} (h : row.Stored c) :
    ∃ b, c.unpack row.packedblock = some (b, []) ∧ c.pack b = row.packedblock := by
  obtain ⟨b, hpacked, -⟩ := h
  refine ⟨b, ?_, hpacked.symm⟩
  rw [hpacked, ← List.append_nil (c.pack b)]
  exact c.unpack_pack b []

/-! ### Loops over blocks -/

theorem ReversibleBlock.not_decodes_iff {row : ReversibleBlock} :
    ¬ row.Decodes c ↔ c.unpack row.packedblock = none := by
  rw [ReversibleBlock.Decodes, Bool.not_eq_true, Option.isSome_eq_false_iff,
    Option.isNone_iff_eq_none]

/-- A loop over blocks is before `rows`, and `prev` is the block before them. -/
structure AtRows (prev : Option ReversibleBlock) (rows : List ReversibleBlock) (s : BlockLoop) :
    Prop where
  next : ∀ row ∈ rows.head?, row.blocknum = s.last + 1 ↔ ∀ q ∈ prev, q.Follows row
  sorted : rows.Pairwise fun a b => a.blocknum < b.blocknum

theorem AtRows.step {row : ReversibleBlock} {rest : List ReversibleBlock}
    (h : AtRows prev (row :: rest) s) {s' : BlockLoop} (hlast : s'.last = row.blocknum) :
    AtRows (some row) rest s' := by
  obtain ⟨hrow, hrest⟩ := List.pairwise_cons.mp h.sorted
  refine ⟨fun x hx => ?_, hrest⟩
  rw [hlast, follows_iff (hrow x (List.mem_of_mem_head? hx))]
  simp

theorem atRows_init (old : ReversibleTable c) :
    AtRows none old.rows (BlockLoop.init old.rows) := by
  refine ⟨fun row hrow => ?_, old.sorted⟩
  obtain ⟨rest, hrows⟩ := List.head?_eq_some_iff.mp hrow
  rw [hrows]
  exact iff_of_true (UInt32.sub_add_cancel row.blocknum 1).symm (by simp)

theorem init_table (rows : List ReversibleBlock) : (BlockLoop.init rows).table = [] := by
  cases rows <;> rfl

theorem init_file (rows : List ReversibleBlock) : (BlockLoop.init rows).file = [] := by
  cases rows <;> rfl

theorem stored_of_isPrefix (old : ReversibleTable c) (hpre : p <+: old.rows)
    (hdecodes : ∀ row ∈ p, row.Decodes c) : ∀ row ∈ p, row.Stored c :=
  fun row hrow => old.sound row (hpre.subset hrow) (hdecodes row hrow)

/-! ### What an import takes -/

theorem importFrom_read {bytes rest : List UInt8} {b : B} (hread : c.read bytes = some (b, rest))
    (hnext : s.start = 0 ∨ c.blockNum b = s.last + 1)
    (hfresh : ∀ t ∈ s.table, t.blocknum < c.blockNum b) :
    importFrom c bytes s =
      importFrom c rest
        { s with
          num := c.blockNum b
          start := if s.start = 0 then c.blockNum b else s.start
          table := s.table ++ [⟨c.blockNum b, c.pack b⟩]
          last := c.blockNum b } := by
  have hbytes : bytes ≠ [] := by
    rintro rfl
    exact absurd (c.read_lt [] b rest hread) (Nat.not_lt_zero _)
  rw [importFrom, if_neg hbytes]
  split
  · rename_i hnone
    rw [hread] at hnone
    cases hnone
  · rename_i tmp rest' hsome
    rw [hread] at hsome
    cases hsome
    have hgap : ¬ (s.start ≠ 0 ∧ c.blockNum b ≠ s.last + 1) := fun h =>
      hnext.elim h.1 h.2
    have hcreate : create s.table ⟨c.blockNum b, c.pack b⟩ =
        some (s.table ++ [⟨c.blockNum b, c.pack b⟩]) := create_of_fresh hfresh
    dsimp only
    rw [if_neg hgap, hcreate]

/-- A file that has exactly some consecutive blocks is imported to its end. -/
theorem importFrom_contents (hconsecutive : p.IsChain ReversibleBlock.Follows)
    (hsorted : p.Pairwise fun a b => a.blocknum < b.blocknum) (hstored : ∀ row ∈ p, row.Stored c)
    (hfresh : ∀ t ∈ s.table, ∀ row ∈ p, t.blocknum < row.blocknum)
    (hnext : ∀ row ∈ p.head?, s.start = 0 ∨ row.blocknum = s.last + 1) :
    ∃ s' : BlockLoop, importFrom c (contents p) s = s'.imported ∧ s'.table = s.table ++ p ∧
      (p = [] → s' = s) ∧ ∀ q ∈ p.getLast?, s'.num = q.blocknum ∧ s'.last = q.blocknum := by
  induction p generalizing s with
  | nil => exact ⟨s, by rw [contents, List.flatMap_nil, importFrom, if_pos rfl], by simp⟩
  | cons row rest ih =>
      obtain ⟨hrow, hrest⟩ := List.pairwise_cons.mp hsorted
      rw [List.forall_mem_cons] at hstored
      obtain ⟨⟨b, hpacked, hnum⟩, hstored⟩ := hstored
      have hread : c.read (contents (row :: rest)) = some (b, contents rest) := by
        rw [contents, List.flatMap_cons, hpacked, c.read_pack]
        rfl
      have hrow' : (⟨c.blockNum b, c.pack b⟩ : ReversibleBlock) = row := by
        rw [← hpacked, ← hnum]
      let s₁ : BlockLoop :=
        { s with
          num := c.blockNum b
          start := if s.start = 0 then c.blockNum b else s.start
          table := s.table ++ [⟨c.blockNum b, c.pack b⟩]
          last := c.blockNum b }
      obtain ⟨hfollows, hchain⟩ := List.isChain_cons.mp hconsecutive
      have hfresh₁ : ∀ t ∈ s₁.table, ∀ x ∈ rest, t.blocknum < x.blocknum := by
        intro t ht x hx
        rcases List.mem_append.mp ht with ht | ht
        · exact hfresh t ht x (List.mem_cons_of_mem _ hx)
        · rw [List.mem_singleton.mp ht, hrow']
          exact hrow x hx
      have hnext₁ : ∀ x ∈ rest.head?, s₁.start = 0 ∨ x.blocknum = s₁.last + 1 := by
        intro x hx
        right
        show x.blocknum = c.blockNum b + 1
        rw [← hnum]
        exact (follows_iff (hrow x (List.mem_of_mem_head? hx))).mpr (hfollows x hx)
      obtain ⟨s', himport, htable, hnil, hlast⟩ := ih hchain hrest hstored hfresh₁ hnext₁
      have hstep : importFrom c (contents (row :: rest)) s = importFrom c (contents rest) s₁ :=
        importFrom_read hread (hnum ▸ hnext row rfl) fun t ht => hnum ▸ hfresh t ht row (by simp)
      refine ⟨s', hstep.trans himport, ?_, by simp, fun q hq => ?_⟩
      · rw [htable, ← List.singleton_append, ← List.append_assoc, ← hrow']
      · match rest with
        | [] =>
            obtain rfl : row = q := by simpa using hq
            rw [hnil rfl, hnum]
            exact ⟨rfl, rfl⟩
        | x :: rest => exact hlast q (by rwa [List.getLast?_cons_cons] at hq)

/-- The table that an import of such a file makes, and that it succeeds if there is a block and
the last one does not have the number 0. -/
theorem import_contents (hconsecutive : p.IsChain ReversibleBlock.Follows)
    (hsorted : p.Pairwise fun a b => a.blocknum < b.blocknum)
    (hstored : ∀ row ∈ p, row.Stored c) :
    (importReversibleBlocks c (contents p)).table = p ∧
      (importReversibleBlocks c (contents p)).result =
        .ok (p.getLast?.any fun q => q.blocknum ≠ 0) := by
  have hempty : ∀ t ∈ ({} : BlockLoop).table, ∀ row ∈ p, t.blocknum < row.blocknum := by simp
  obtain ⟨s', himport, htable, hnil, hlast⟩ :=
    importFrom_contents hconsecutive hsorted hstored hempty fun _ _ => .inl rfl
  rw [importReversibleBlocks, himport]
  refine ⟨htable, ?_⟩
  match hp : p.getLast? with
  | none =>
      rw [hnil (List.getLast?_eq_none_iff.mp hp)]
      rfl
  | some q =>
      obtain ⟨hnum, hlast⟩ := hlast q hp
      rw [BlockLoop.imported, hnum, hlast]
      simp

/-! ### Some tables -/

/-- A block is packed as a mark and its number. -/
def sampleCodec : BlockCodec UInt8 where
  pack b := [1, b]
  unpack
    | 1 :: b :: rest => some (b, rest)
    | _ => none
  read
    | 1 :: b :: rest => some (b, rest)
    | _ => none
  blockNum b := b.toUInt32
  pack_ne_nil _ := by simp
  unpack_pack _ _ := rfl
  read_pack _ _ := rfl
  read_lt bytes b rest h := by
    split at h
    · cases h
      exact Nat.lt_succ_of_lt (Nat.lt_succ_self _)
    · cases h

/-- The blocks have a gap. -/
def gapTable : ReversibleTable sampleCodec where
  rows := [⟨1, [1, 1]⟩, ⟨3, [1, 3]⟩]
  sorted := by decide
  sound := by
    simp only [List.forall_mem_cons]
    exact ⟨fun _ => ⟨1, rfl, rfl⟩, fun _ => ⟨3, rfl, rfl⟩, by simp⟩

end Xidata.ChainPlugin
