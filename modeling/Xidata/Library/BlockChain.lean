import Mathlib.Data.List.Basic
import Mathlib.Data.Nat.Basic

/-!
A stretch of memory cut into blocks that follow each other without gaps.  Each block
begins with a header of `w` cells that tells its size and whether it is in use; the
cells behind the header are what it has to give.

The tiling itself is a matter of addresses; that the headers in memory tell it is said
separately, of a function that reads the header at an address.
-/

namespace BlockChain

/-- A block whose header is at `addr`. -/
structure Block where
  addr : ℕ
  size : ℕ
  used : Bool
deriving DecidableEq

variable {w a c e : ℕ} {x y : Block} {bs xs ys : List Block}

/-- The blocks follow each other from `a` to `e`. -/
def Tiles (w : ℕ) : ℕ → List Block → ℕ → Prop
  | a, [], e => a = e
  | a, x :: bs, e => x.addr = a ∧ Tiles w (x.addr + w + x.size) bs e

@[simp] theorem tiles_nil : Tiles w a [] e ↔ a = e := Iff.rfl

@[simp] theorem tiles_cons :
    Tiles w a (x :: bs) e ↔ x.addr = a ∧ Tiles w (x.addr + w + x.size) bs e := Iff.rfl

theorem tiles_append : Tiles w a (xs ++ ys) e ↔ ∃ c, Tiles w a xs c ∧ Tiles w c ys e := by
  induction xs generalizing a with
  | nil => simp
  | cons x xs ih => simp [ih, and_assoc]

theorem Tiles.le (h : Tiles w a bs e) : a ≤ e := by
  induction bs generalizing a with
  | nil => exact Nat.le_of_eq h
  | cons x bs ih =>
      have hrest := ih h.2
      have haddr := h.1
      omega

/-- The blocks tell where they end. -/
theorem Tiles.end_unique {e' : ℕ} (h : Tiles w a bs e) (h' : Tiles w a bs e') : e = e' := by
  induction bs generalizing a with
  | nil => exact h.symm.trans h'
  | cons x bs ih => exact ih h.2 h'.2

/-- A block lies between the ends of the tiling. -/
theorem Tiles.bounds (h : Tiles w a bs e) (hx : x ∈ bs) :
    a ≤ x.addr ∧ x.addr + w + x.size ≤ e := by
  obtain ⟨xs, ys, rfl⟩ := List.append_of_mem hx
  obtain ⟨c, hxs, haddr, hys⟩ := tiles_append.mp h
  exact ⟨haddr ▸ hxs.le, hys.le⟩

/-- The tiling on both sides of one of its blocks. -/
theorem Tiles.split (h : Tiles w a bs e) (hx : x ∈ bs) :
    ∃ xs ys, bs = xs ++ x :: ys ∧ Tiles w a xs x.addr ∧ Tiles w (x.addr + w + x.size) ys e := by
  obtain ⟨xs, ys, rfl⟩ := List.append_of_mem hx
  obtain ⟨c, hxs, haddr, hys⟩ := tiles_append.mp h
  exact ⟨xs, ys, rfl, haddr ▸ hxs, hys⟩

/-- Two blocks are one and the same, or one ends before the other begins. -/
theorem Tiles.apart (h : Tiles w a bs e) (hx : x ∈ bs) (hy : y ∈ bs) :
    x = y ∨ x.addr + w + x.size ≤ y.addr ∨ y.addr + w + y.size ≤ x.addr := by
  obtain ⟨xs, ys, rfl, hxs, hys⟩ := h.split hx
  rcases List.mem_append.mp hy with hy | hy
  · exact Or.inr (Or.inr (hxs.bounds hy).2)
  · rcases List.mem_cons.mp hy with rfl | hy
    · exact Or.inl rfl
    · exact Or.inr (Or.inl (hys.bounds hy).1)

theorem Tiles.eq_of_addr (hw : 0 < w) (h : Tiles w a bs e) (hx : x ∈ bs) (hy : y ∈ bs)
    (haddr : x.addr = y.addr) : x = y := by
  rcases h.apart hx hy with heq | hlt | hlt
  · exact heq
  · omega
  · omega

/-- There is room for so many blocks only. -/
theorem Tiles.length_le (h : Tiles w a bs e) : bs.length * w ≤ e - a := by
  induction bs generalizing a with
  | nil => simp
  | cons x bs ih =>
      have hrest := ih h.2
      have hle := h.2.le
      have haddr := h.1
      rw [List.length_cons, Nat.succ_mul]
      omega

/-! ### Headers -/

/-- The headers tell of the blocks. -/
def Heads (head : ℕ → ℕ × Bool) (bs : List Block) : Prop :=
  ∀ x ∈ bs, head x.addr = (x.size, x.used)

theorem Heads.mono {head : ℕ → ℕ × Bool} (h : Heads head bs) (hsub : ∀ x ∈ xs, x ∈ bs) :
    Heads head xs := fun x hx => h x (hsub x hx)

/-- Headers that were not written tell what they told. -/
theorem Heads.congr {head head' : ℕ → ℕ × Bool} (h : Heads head bs)
    (heq : ∀ x ∈ bs, head' x.addr = head x.addr) : Heads head' bs :=
  fun x hx => (heq x hx).trans (h x hx)

/-- The headers tell which blocks there are. -/
theorem Tiles.unique {head : ℕ → ℕ × Bool} (hw : 0 < w) (hxs : Tiles w a xs e)
    (hys : Tiles w a ys e) (hx : Heads head xs) (hy : Heads head ys) : xs = ys := by
  induction xs generalizing a ys with
  | nil =>
      cases ys with
      | nil => rfl
      | cons y ys =>
          have hle := hys.2.le
          have haddr := hys.1
          have hend : a = e := hxs
          omega
  | cons x xs ih =>
      cases ys with
      | nil =>
          have hle := hxs.2.le
          have haddr := hxs.1
          have hend : a = e := hys
          omega
      | cons y ys =>
          obtain ⟨rfl, hxs⟩ := hxs
          obtain ⟨haddr, hys⟩ := hys
          have hsame : (x.size, x.used) = (y.size, y.used) := by
            rw [← hx x List.mem_cons_self, ← hy y List.mem_cons_self, haddr]
          obtain rfl : x = y := by
            cases x
            cases y
            cases hsame
            cases haddr
            rfl
          rw [ih hxs hys (hx.mono fun z hz => List.mem_cons_of_mem x hz)
            (hy.mono fun z hz => List.mem_cons_of_mem x hz)]

/-- The headers from `a` on tell of free blocks only, up to `e`. -/
inductive FreeRun (w : ℕ) (head : ℕ → ℕ × Bool) : ℕ → ℕ → Prop
  | done (e : ℕ) : FreeRun w head e e
  | next {a e : ℕ} (hfree : (head a).2 = false) (hrest : FreeRun w head (a + w + (head a).1) e) :
      FreeRun w head a e

theorem freeRun_iff {head : ℕ → ℕ × Bool} (hw : 0 < w) (h : Tiles w a bs e)
    (hheads : Heads head bs) : FreeRun w head a e ↔ ∀ x ∈ bs, x.used = false := by
  induction bs generalizing a with
  | nil =>
      obtain rfl : a = e := h
      exact ⟨fun _ x hx => (by cases hx), fun _ => .done a⟩
  | cons x bs ih =>
      obtain ⟨rfl, hrest⟩ := h
      have hx : head x.addr = (x.size, x.used) := hheads x List.mem_cons_self
      have htail := ih hrest (hheads.mono fun y hy => List.mem_cons_of_mem x hy)
      rw [List.forall_mem_cons, ← htail]
      constructor
      · rintro (_ | ⟨hfree, hrun⟩)
        · have hle := hrest.le
          omega
        · rw [hx] at hfree hrun
          exact ⟨hfree, hrun⟩
      · rintro ⟨hfree, hrun⟩
        refine .next ?_ ?_
        · rw [hx]
          exact hfree
        · rw [hx]
          exact hrun

/-! ### What is in use -/

/-- The blocks in use are among others still. -/
def Keeps (bs bs' : List Block) : Prop := ∀ x ∈ bs, x.used = true → x ∈ bs'

theorem Keeps.refl (bs : List Block) : Keeps bs bs := fun _ hx _ => hx

theorem Keeps.trans {bs' bs'' : List Block} (h : Keeps bs bs') (h' : Keeps bs' bs'') :
    Keeps bs bs'' := fun x hx hused => h' x (h x hx hused) hused

/-- The cell belongs to a block in use. -/
def Held (w : ℕ) (bs : List Block) (i : ℕ) : Prop :=
  ∃ x ∈ bs, x.used = true ∧ x.addr + w ≤ i ∧ i < x.addr + w + x.size

theorem Held.mono {bs' : List Block} {i : ℕ} (h : Held w bs i) (hkeeps : Keeps bs bs') :
    Held w bs' i := by
  obtain ⟨x, hx, hused, hi⟩ := h
  exact ⟨x, hkeeps x hx hused, hused, hi⟩

end BlockChain
