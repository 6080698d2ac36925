import Xidata.Allocator.MemoryManager
import Xidata.Library.BlockChain

/-!
What the operations on one heap do to its blocks.  The headers of a heap tell of blocks
that follow each other from its start to its offset; each operation is described by the
blocks before and after it, and by the bytes that it leaves alone: all those outside of
the heap and all those in blocks in use.
-/

namespace Xidata.Allocator

open ByteMemory BlockChain

/-! ### Headers -/

/-- What a header tells: the size of its block, and whether it is in use. -/
def header (mem : Bytes) (a : ℕ) : ℕ × Bool :=
  (word mem a &&& sizeMask, word mem a &&& allocMemoryMask != 0)

variable {mem mem' mem'' : Bytes} {a i ptr size size' needed : ℕ} {used used' : Bool}

theorem u32_of_lt {n : ℕ} (h : n < 2 ^ 32) : u32 n = n := Nat.mod_eq_of_lt h

theorem sub32_of_le {n k : ℕ} (h : k ≤ n) (hn : n < 2 ^ 32) : sub32 n k = n - k := by
  rw [sub32]
  omega

theorem and_sizeMask_lt (n : ℕ) : n &&& sizeMask < 2 ^ 31 :=
  Nat.and_lt_two_pow n (by decide)

theorem and_sizeMask_of_lt {n : ℕ} (h : n < 2 ^ 31) : n &&& sizeMask = n := by
  rw [sizeMask, Nat.and_two_pow_sub_one_eq_mod, Nat.mod_eq_of_lt h]

theorem and_allocMemoryMask_of_lt {n : ℕ} (h : n < 2 ^ 31) : n &&& allocMemoryMask = 0 := by
  rw [allocMemoryMask, Nat.and_two_pow, Nat.testBit_lt_two_pow h, Bool.toNat_false, zero_mul]

theorem allocMemoryMask_and_sizeMask : allocMemoryMask &&& sizeMask = 0 := by decide

theorem word_lt (mem : Bytes) (a : ℕ) : word mem a < 2 ^ 32 := load_lt mem a sizeMarker

/-- The memory with one header written. -/
structure Puts (mem mem' : Bytes) (a size : ℕ) (used : Bool) : Prop where
  outside : ∀ i, i < a ∨ a + sizeMarker ≤ i → mem' i = mem i
  header : header mem' a = (size, used)

theorem Puts.trans (h : Puts mem mem' a size used) (h' : Puts mem' mem'' a size' used') :
    Puts mem mem'' a size' used' :=
  ⟨fun i hi => (h'.outside i hi).trans (h.outside i hi), h'.header⟩

/-- The other headers are what they were. -/
theorem Puts.other (h : Puts mem mem' a size used) {b : ℕ}
    (hb : b + sizeMarker ≤ a ∨ a + sizeMarker ≤ b) :
    Allocator.header mem' b = Allocator.header mem b := by
  have hword : word mem' b = word mem b := load_congr fun c hc hlt => h.outside c (by omega)
  rw [Allocator.header, Allocator.header, hword]

theorem puts_setWord (mem : Bytes) (a : ℕ) {n : ℕ} (hn : n < 2 ^ 32) :
    Puts mem (setWord mem a n) a (n &&& sizeMask) (n &&& allocMemoryMask != 0) := by
  refine ⟨fun i hi => store_outside hi, ?_⟩
  have hword : word (setWord mem a n) a = n := load_store_of_lt hn
  rw [Allocator.header, hword]

/-- A block keeps its state when its size is set. -/
theorem puts_setSize (mem : Bytes) (b : BufferPtr) (hsize : size < 2 ^ 31) :
    Puts mem (b.setSize mem size).1 (b.ptr - sizeMarker) size
      (header mem (b.ptr - sizeMarker)).2 := by
  have hstate : word mem (b.ptr - sizeMarker) &&& allocMemoryMask < 2 ^ 32 :=
    Nat.and_lt_two_pow _ (by decide)
  have h := puts_setWord mem (b.ptr - sizeMarker)
    (Nat.or_lt_two_pow (hsize.trans (by decide)) hstate)
  rwa [Nat.and_or_distrib_right, Nat.and_or_distrib_right, Nat.and_assoc, Nat.and_assoc,
    allocMemoryMask_and_sizeMask, Nat.and_self, Nat.and_zero, Nat.or_zero,
    and_sizeMask_of_lt hsize, and_allocMemoryMask_of_lt hsize, Nat.zero_or] at h

theorem puts_markAlloc {b : BufferPtr} (h : (header mem (b.ptr - sizeMarker)).1 = size) :
    Puts mem (b.markAlloc mem) (b.ptr - sizeMarker) size true := by
  have hmark := puts_setWord mem (b.ptr - sizeMarker)
    (Nat.or_lt_two_pow (word_lt mem (b.ptr - sizeMarker)) (show allocMemoryMask < 2 ^ 32 by decide))
  have hused : (word mem (b.ptr - sizeMarker) ||| allocMemoryMask) &&& allocMemoryMask ≠ 0 := by
    rw [Nat.and_or_distrib_right, Nat.and_self, allocMemoryMask, Nat.and_two_pow]
    cases (word mem (b.ptr - sizeMarker)).testBit 31 <;> decide
  rw [Nat.and_or_distrib_right, allocMemoryMask_and_sizeMask, Nat.or_zero,
    bne_iff_ne.mpr hused] at hmark
  exact h ▸ hmark

theorem puts_markFree {b : BufferPtr} (h : (header mem (b.ptr - sizeMarker)).1 = size) :
    Puts mem (b.markFree mem) (b.ptr - sizeMarker) size false := by
  have hmark := puts_setWord mem (b.ptr - sizeMarker)
    ((and_sizeMask_lt (word mem (b.ptr - sizeMarker))).trans (by decide))
  rw [and_allocMemoryMask_of_lt (and_sizeMask_lt _), and_sizeMask_of_lt (and_sizeMask_lt _)]
    at hmark
  exact h ▸ hmark

/-- A block of a given size is written and marked as in use. -/
theorem puts_make_markAlloc (mem : Bytes) (ptr heapEnd : ℕ) (hsize : size < 2 ^ 31) :
    Puts mem ((BufferPtr.make mem ptr size heapEnd).2.markAlloc
      (BufferPtr.make mem ptr size heapEnd).1) (ptr - sizeMarker) size true := by
  have hset := puts_setSize mem ⟨ptr, 0, heapEnd⟩ hsize
  exact hset.trans (puts_markAlloc (b := ⟨ptr, size, heapEnd⟩) (congrArg Prod.fst hset.header))

theorem puts_make_markFree (mem : Bytes) (ptr heapEnd : ℕ) (hsize : size < 2 ^ 31) :
    Puts mem ((BufferPtr.make mem ptr size heapEnd).2.markFree
      (BufferPtr.make mem ptr size heapEnd).1) (ptr - sizeMarker) size false := by
  have hset := puts_setSize mem ⟨ptr, 0, heapEnd⟩ hsize
  exact hset.trans (puts_markFree (b := ⟨ptr, size, heapEnd⟩) (congrArg Prod.fst hset.header))

/-! ### The blocks of a heap -/

namespace Memory

/-- A heap in the range of 32 bits, whose parts are whole memory blocks. -/
structure InRange (h : Memory) : Prop where
  heap : sizeMarker ≤ h.heap
  fin : h.heap + h.heapSize + sizeMarker < 2 ^ 32
  size : h.heapSize < 2 ^ 31
  whole : h.heapSize % 8 = 0
  offset : h.offset ≤ h.heapSize
  wholeOffset : h.offset % 8 = 0

theorem InRange.fin_eq {h : Memory} (hh : h.InRange) : h.fin = h.heap + h.heapSize :=
  u32_of_lt ((Nat.le_add_right _ _).trans_lt hh.fin)

end Memory

/-- The headers of the heap tell of the blocks `bs`, which lie without gaps from its start
to its offset. -/
structure Chained (mem : Bytes) (h : Memory) (bs : List Block) : Prop where
  inRange : h.InRange
  tiles : Tiles sizeMarker h.heap bs (h.heap + h.offset)
  heads : Heads (header mem) bs
  whole : ∀ x ∈ bs, x.size % 8 = 4

/-- The address is none of the heap's. -/
def Memory.Outside (h : Memory) (i : ℕ) : Prop := i < h.heap ∨ h.heap + h.heapSize ≤ i

variable {h h' : Memory} {bs bs' xs ys fs zs : List Block} {x y : Block} {d : ℕ}

/-- A block with its header lies in the heap. -/
theorem Chained.bounds (hs : Chained mem h bs) (hx : x ∈ bs) :
    h.heap ≤ x.addr ∧ x.addr + sizeMarker + x.size ≤ h.heap + h.offset ∧
      x.size % 8 = 4 :=
  ⟨(hs.tiles.bounds hx).1, (hs.tiles.bounds hx).2, hs.whole x hx⟩

/-- A heap is chained in a memory that agrees with another one on it. -/
theorem Chained.congr (hs : Chained mem h bs)
    (hmem : ∀ i, h.heap ≤ i → i < h.heap + h.heapSize → ¬ Held sizeMarker bs i → mem' i = mem i) :
    Chained mem' h bs := by
  refine ⟨hs.inRange, hs.tiles, hs.heads.congr fun x hx => ?_, hs.whole⟩
  have hword : word mem' x.addr = word mem x.addr := by
    refine load_congr fun i hi hlt => hmem i ?_ ?_ ?_
    · exact (hs.bounds hx).1.trans hi
    · have hle := (hs.bounds hx).2.1
      have hoffset := hs.inRange.offset
      omega
    · rintro ⟨y, hy, -, hlow, hhigh⟩
      rcases hs.tiles.apart hx hy with rfl | hlt' | hlt' <;> omega
  rw [header, header, hword]

/-- The blocks `ms` of the heap are replaced by others in the same place. -/
theorem Chained.replace (fs ms : List Block) (hs : Chained mem h (xs ++ x :: (fs ++ zs)))
    (hfs : Tiles sizeMarker (x.addr + sizeMarker + x.size) fs d)
    (hms : Tiles sizeMarker x.addr ms d) (hheads : Heads (header mem') ms)
    (hwhole : ∀ y ∈ ms, y.size % 8 = 4)
    (hmem : ∀ i, i < x.addr ∨ d ≤ i → mem' i = mem i) : Chained mem' h (xs ++ (ms ++ zs)) := by
  obtain ⟨c, hxs, rfl, hrest⟩ := tiles_append.mp hs.tiles
  obtain ⟨d', hfs', hzs⟩ := tiles_append.mp hrest
  obtain rfl : d = d' := hfs.end_unique hfs'
  have hfar : ∀ y ∈ xs ++ zs, header mem' y.addr = header mem y.addr := by
    intro y hy
    have hword : word mem' y.addr = word mem y.addr := by
      refine load_congr fun i hi hlt => hmem i ?_
      rcases List.mem_append.mp hy with hy | hy
      · have hle := (hxs.bounds hy).2
        omega
      · have hle := (hzs.bounds hy).1
        omega
    rw [header, header, hword]
  refine ⟨hs.inRange, tiles_append.mpr ⟨_, hxs, tiles_append.mpr ⟨d, hms, hzs⟩⟩, ?_, ?_⟩
  · intro y hy
    rcases List.mem_append.mp hy with hy | hy
    · rw [hfar y (List.mem_append_left zs hy)]
      exact hs.heads y (by simp [hy])
    · rcases List.mem_append.mp hy with hy | hy
      · exact hheads y hy
      · rw [hfar y (List.mem_append_right xs hy)]
        exact hs.heads y (by simp [hy])
  · intro y hy
    rcases List.mem_append.mp hy with hy | hy
    · exact hs.whole y (by simp [hy])
    · rcases List.mem_append.mp hy with hy | hy
      · exact hwhole y hy
      · exact hs.whole y (by simp [hy])

/-- Nothing changes outside of the heap and in the blocks in use. -/
def Frame (mem mem' : Bytes) (h : Memory) (bs : List Block) : Prop :=
  ∀ i, h.Outside i ∨ Held sizeMarker bs i → mem' i = mem i

theorem Frame.refl (mem : Bytes) (h : Memory) (bs : List Block) : Frame mem mem h bs :=
  fun _ _ => rfl

theorem Frame.trans (hframe : Frame mem mem' h bs) (hkeeps : Keeps bs bs')
    (hframe' : Frame mem' mem'' h bs') : Frame mem mem'' h bs := fun i hi =>
  (hframe' i (hi.imp_right fun hheld => hheld.mono hkeeps)).trans (hframe i hi)

/-- A header in the heap that does not lie in a block in use. -/
theorem Puts.frame (hputs : Puts mem mem' a size used) (hlow : h.heap ≤ a)
    (hhigh : a + sizeMarker ≤ h.heap + h.heapSize)
    (hfar : ∀ i, a ≤ i → i < a + sizeMarker → ¬ Held sizeMarker bs i) :
    Frame mem mem' h bs := by
  intro i hi
  refine hputs.outside i ?_
  by_contra hin
  rcases hi with hout | hheld
  · rcases hout with hout | hout <;> omega
  · exact hfar i (by omega) (by omega) hheld

/-- No block in use lies behind the offset. -/
theorem Chained.not_held (hs : Chained mem h bs) (hi : h.heap + h.offset ≤ i) :
    ¬ Held sizeMarker bs i := by
  rintro ⟨x, hx, -, hlow, hhigh⟩
  have hle := (hs.bounds hx).2.1
  omega

/-! ### New blocks -/

/-- The block behind the offset. -/
theorem Chained.push (hs : Chained mem h bs)
    (hputs : Puts mem mem' (h.heap + h.offset) size used) (hwhole : size % 8 = 4)
    (hle : h.offset + size + sizeMarker ≤ h.heapSize) :
    Chained mem' { h with offset := h.offset + size + sizeMarker }
        (bs ++ [⟨h.heap + h.offset, size, used⟩]) ∧ Frame mem mem' h bs := by
  have hr := hs.inRange
  have hmarker : sizeMarker = 4 := rfl
  constructor
  · refine ⟨⟨hr.heap, hr.fin, hr.size, hr.whole, hle, ?_⟩, ?_, ?_, ?_⟩
    · show (h.offset + size + sizeMarker) % 8 = 0
      have hoffset := hr.wholeOffset
      omega
    · refine tiles_append.mpr ⟨_, hs.tiles, rfl, ?_⟩
      show h.heap + h.offset + sizeMarker + size = h.heap + (h.offset + size + sizeMarker)
      omega
    · intro x hx
      rcases List.mem_append.mp hx with hx | hx
      · have hend := (hs.bounds hx).2.1
        exact (hputs.other (by omega)).trans (hs.heads x hx)
      · obtain rfl := List.mem_singleton.mp hx
        exact hputs.header
    · intro x hx
      rcases List.mem_append.mp hx with hx | hx
      · exact hs.whole x hx
      · obtain rfl := List.mem_singleton.mp hx
        exact hwhole
  · exact hputs.frame (by omega) (by omega) fun i hi _ => hs.not_held hi

theorem keeps_append (bs ys : List Block) : Keeps bs (bs ++ ys) :=
  fun _ hx _ => List.mem_append_left ys hx

/-! ### Merging -/

/-- What the loop of `merge_contiguous` has counted in: free blocks `fs`, which end where
there is room enough, in front of a block in use, or at the end of the heap. -/
structure Collected (heapEnd needed ptr possible : ℕ) (ys fs zs : List Block) (e total : ℕ) :
    Prop where
  split : ys = fs ++ zs
  free : ∀ f ∈ fs, f.used = false
  tiles : Tiles sizeMarker (ptr + possible) fs (ptr + total)
  stop : needed ≤ total ∨ (zs = [] ∧ e = heapEnd) ∨ ∃ z zs', zs = z :: zs' ∧ z.used = true

/-- The loop does not leave the blocks `ys`, unless the free ones among them end in front
of memory that belongs to no block. -/
theorem possibleSize_spec {heapEnd e turns possible : ℕ} (hfin : heapEnd < 2 ^ 32)
    (hle : e ≤ heapEnd) (htiles : Tiles sizeMarker (ptr + possible) ys e)
    (hheads : Heads (header mem) ys)
    (hstop : e = heapEnd ∨ ptr + needed ≤ e ∨ ∃ y ∈ ys, y.used = true)
    (hturns : heapEnd ≤ ptr + possible + turns) :
    ∃ fs zs, Collected heapEnd needed ptr possible ys fs zs e
      (BufferPtr.possibleSize mem ptr heapEnd needed turns possible) := by
  have hmarker : sizeMarker = 4 := rfl
  induction ys generalizing turns possible with
  | nil =>
      -- the blocks are used up
      obtain rfl : ptr + possible = e := htiles
      have hdone : needed ≤ possible ∨ ptr + possible = heapEnd := by
        rcases hstop with hstop | hstop | ⟨y, hy, -⟩
        · exact Or.inr hstop
        · omega
        · cases hy
      have hsize : BufferPtr.possibleSize mem ptr heapEnd needed turns possible = possible := by
        cases turns with
        | zero => rfl
        | succ turns =>
            rw [BufferPtr.possibleSize, if_neg]
            rintro ⟨hneeded, hlt⟩
            rw [u32_of_lt (by omega)] at hlt
            omega
      rw [hsize]
      refine ⟨[], [], rfl, fun f hf => (by cases hf), rfl, ?_⟩
      exact hdone.imp_right fun hend => Or.inl ⟨rfl, hend⟩
  | cons y ys ih =>
      obtain ⟨haddr, hrest⟩ := htiles
      have hend := hrest.le
      have hhead : header mem y.addr = (y.size, y.used) := hheads y List.mem_cons_self
      obtain ⟨turns, rfl⟩ : ∃ k, turns = k + 1 := ⟨turns - 1, by omega⟩
      rw [BufferPtr.possibleSize]
      by_cases hneeded : possible < needed
      · rw [u32_of_lt (by omega), if_pos ⟨hneeded, by omega⟩, ← haddr]
        have hsize : word mem y.addr &&& sizeMask = y.size := congrArg Prod.fst hhead
        have hused : (word mem y.addr &&& allocMemoryMask != 0) = y.used := congrArg Prod.snd hhead
        by_cases hy : y.used = true
        · -- a block in use ends the run
          rw [hy, bne_iff_ne] at hused
          rw [if_pos hused]
          refine ⟨[], y :: ys, rfl, fun f hf => (by cases hf), rfl, ?_⟩
          exact Or.inr (Or.inr ⟨y, ys, rfl, hy⟩)
        · have hfree : ¬ word mem y.addr &&& allocMemoryMask ≠ 0 := by
            rw [← bne_iff_ne, hused]
            exact hy
          rw [if_neg hfree, hsize, u32_of_lt (by omega)]
          have hnext : y.addr + sizeMarker + y.size = ptr + (possible + (y.size + sizeMarker)) := by
            omega
          obtain ⟨fs, zs, hsplit, hfs, htiles, hdone⟩ := ih (hnext ▸ hrest)
            (hheads.mono fun z hz => List.mem_cons_of_mem y hz)
            (hstop.imp_right fun hstop => hstop.imp_right fun ⟨z, hz, hzused⟩ => by
              rcases List.mem_cons.mp hz with rfl | hz
              · exact absurd hzused hy
              · exact ⟨z, hz, hzused⟩)
            (show heapEnd ≤ ptr + (possible + (y.size + sizeMarker)) + turns by omega)
          refine ⟨y :: fs, zs, ?_, ?_, ⟨haddr, hnext ▸ htiles⟩, hdone⟩
          · rw [hsplit, List.cons_append]
          · exact List.forall_mem_cons.mpr ⟨Bool.eq_false_iff.mpr hy, hfs⟩
      · rw [if_neg fun hloop => hneeded hloop.1]
        exact ⟨[], y :: ys, rfl, fun f hf => (by cases hf), rfl, Or.inl (by omega)⟩

/-- A run of whole memory blocks is one. -/
theorem tiles_whole (hfs : Tiles sizeMarker a fs d) (hwhole : ∀ f ∈ fs, f.size % 8 = 4) :
    (d - a) % 8 = 0 := by
  induction fs generalizing a with
  | nil =>
      obtain rfl : a = d := hfs
      rw [Nat.sub_self]
  | cons f fs ih =>
      obtain ⟨rfl, hrest⟩ := hfs
      have hmarker : sizeMarker = 4 := rfl
      have htail := ih hrest fun g hg => hwhole g (List.mem_cons_of_mem f hg)
      have hhead := hwhole f List.mem_cons_self
      have hle := hrest.le
      omega

/-- From the header of a block to the end of the free blocks behind it, only what the block
itself holds may be in use. -/
theorem Chained.not_held_run (fs : List Block) (hs : Chained mem h (xs ++ x :: (fs ++ zs)))
    (hfs : Tiles sizeMarker (x.addr + sizeMarker + x.size) fs d)
    (hfree : ∀ f ∈ fs, f.used = false) (hlow : x.addr ≤ i) (hhigh : i < d)
    (hx : x.used = true → i < x.addr + sizeMarker ∨ x.addr + sizeMarker + x.size ≤ i) :
    ¬ Held sizeMarker (xs ++ x :: (fs ++ zs)) i := by
  rintro ⟨y, hy, hused, hlow', hhigh'⟩
  obtain ⟨c, hxs, rfl, hrest⟩ := tiles_append.mp hs.tiles
  obtain ⟨d', hfs', hzs⟩ := tiles_append.mp hrest
  obtain rfl : d = d' := hfs.end_unique hfs'
  rcases List.mem_append.mp hy with hy | hy
  · have hle := (hxs.bounds hy).2
    omega
  · rcases List.mem_cons.mp hy with rfl | hy
    · have hout := hx hused
      omega
    · rcases List.mem_append.mp hy with hy | hy
      · rw [hfree y hy] at hused
        cases hused
      · have hle := (hzs.bounds hy).1
        omega

/-- The block `x` has taken in free blocks that follow it, and has the size `size'` now. -/
structure Merged (mem mem' : Bytes) (h : Memory) (xs : List Block) (x : Block)
    (ys : List Block) (size' needed : ℕ) (rest : List Block) : Prop where
  chained : Chained mem' h (xs ++ { x with size := size' } :: rest)
  frame : Frame mem mem' h (xs ++ x :: ys)
  keeps : Keeps ys rest
  shorter : size' ≠ needed → rest.length ≤ ys.length

section Merging

variable {total : ℕ} (hs : Chained mem h (xs ++ x :: (fs ++ zs)))
  (hfs : Tiles sizeMarker (x.addr + sizeMarker + x.size) fs (x.addr + sizeMarker + total))
  (hfree : ∀ f ∈ fs, f.used = false)

include hs hfs hfree

/-- The block takes in all of the free blocks. -/
theorem merged_whole (hputs : Puts mem mem' x.addr total x.used) :
    Merged mem mem' h xs x (fs ++ zs) total needed zs := by
  have hmarker : sizeMarker = 4 := rfl
  have hxmem : x ∈ xs ++ x :: (fs ++ zs) := by simp
  have hbounds := hs.bounds hxmem
  have hle := hfs.le
  have hmod := tiles_whole hfs fun f hf => hs.whole f (by simp [hf])
  obtain ⟨c, -, hc⟩ := tiles_append.mp hs.tiles
  obtain ⟨d, hd, hzs⟩ := tiles_append.mp hc.2
  have hend := (hfs.end_unique hd ▸ hzs).le
  have hoffset := hs.inRange.offset
  refine ⟨?_, ?_, ?_, fun _ => by simp⟩
  · refine hs.replace fs [{ x with size := total }] hfs ⟨rfl, rfl⟩ ?_ ?_ fun i hi => ?_
    · exact fun y hy => List.mem_singleton.mp hy ▸ hputs.header
    · intro y hy
      rw [List.mem_singleton.mp hy]
      show total % 8 = 4
      omega
    · exact hputs.outside i (by omega)
  · exact hputs.frame (by omega) (by omega) fun i hlow hhigh =>
      hs.not_held_run fs hfs hfree hlow (by omega) fun _ => Or.inl hhigh
  · intro y hy hused
    rcases List.mem_append.mp hy with hy | hy
    · rw [hfree y hy] at hused
      cases hused
    · exact hy

/-- The block takes in what it needs, and leaves a free block behind it. -/
theorem merged_cut (hx : x.used = true → x.size ≤ needed) (hneeded : needed % 8 = 4)
    (hlt : needed < total) (hputs : Puts mem mem' x.addr needed x.used)
    (hputs' : Puts mem' mem'' (x.addr + sizeMarker + needed) (total - needed - sizeMarker) false) :
    Merged mem mem'' h xs x (fs ++ zs) needed needed
      (⟨x.addr + sizeMarker + needed, total - needed - sizeMarker, false⟩ :: zs) := by
  have hmarker : sizeMarker = 4 := rfl
  have hxmem : x ∈ xs ++ x :: (fs ++ zs) := by simp
  have hbounds := hs.bounds hxmem
  have hle := hfs.le
  have hmod := tiles_whole hfs fun f hf => hs.whole f (by simp [hf])
  obtain ⟨c, -, hc⟩ := tiles_append.mp hs.tiles
  obtain ⟨d, hd, hzs⟩ := tiles_append.mp hc.2
  have hend := (hfs.end_unique hd ▸ hzs).le
  have hoffset := hs.inRange.offset
  refine ⟨?_, ?_, ?_, fun hne => absurd rfl hne⟩
  · refine hs.replace fs [{ x with size := needed },
      ⟨x.addr + sizeMarker + needed, total - needed - sizeMarker, false⟩] hfs
      ⟨rfl, rfl, ?_⟩ ?_ ?_ fun i hi => ?_
    · show x.addr + sizeMarker + needed + sizeMarker + (total - needed - sizeMarker) = _
      omega
    · intro y hy
      rcases List.mem_cons.mp hy with rfl | hy
      · exact (hputs'.other (Or.inl (Nat.le_add_right _ needed))).trans hputs.header
      · exact List.mem_singleton.mp hy ▸ hputs'.header
    · intro y hy
      rcases List.mem_cons.mp hy with rfl | hy
      · exact hneeded
      · rw [List.mem_singleton.mp hy]
        show (total - needed - sizeMarker) % 8 = 4
        omega
    · exact (hputs'.outside i (by omega)).trans (hputs.outside i (by omega))
  · intro i hi
    refine (hputs'.frame (h := h) (by omega) (by omega) (fun i hlow hhigh =>
      hs.not_held_run fs hfs hfree (by omega) (by omega) fun hused => ?_) i hi).trans
      (hputs.frame (by omega) (by omega) (fun i hlow hhigh =>
        hs.not_held_run fs hfs hfree hlow (by omega) fun _ => Or.inl hhigh) i hi)
    have hxsize := hx hused
    omega
  · intro y hy hused
    rcases List.mem_append.mp hy with hy | hy
    · rw [hfree y hy] at hused
      cases hused
    · exact List.mem_cons_of_mem _ hy

end Merging

/-- The block as the code sees it. -/
def Memory.bufferPtr (h : Memory) (x : Block) : BufferPtr := ⟨x.addr + sizeMarker, x.size, h.fin⟩

theorem Chained.read (hs : Chained mem h bs) (hx : x ∈ bs) :
    BufferPtr.read mem (x.addr + sizeMarker) h.fin = h.bufferPtr x := by
  have hhead : word mem x.addr &&& sizeMask = x.size := congrArg Prod.fst (hs.heads x hx)
  rw [BufferPtr.read, Nat.add_sub_cancel, hhead]
  rfl

theorem Chained.isAlloc (hs : Chained mem h bs) (hx : x ∈ bs) :
    (h.bufferPtr x).isAlloc mem = x.used := congrArg Prod.snd (hs.heads x hx)

theorem Chained.setSize (hs : Chained mem h bs) (hx : x ∈ bs) (hsize : size < 2 ^ 31) :
    ∃ mem', (h.bufferPtr x).setSize mem size = (mem', h.bufferPtr { x with size }) ∧
      Puts mem mem' x.addr size x.used := by
  have hputs := puts_setSize mem (h.bufferPtr x) hsize
  have haddr : (h.bufferPtr x).ptr - sizeMarker = x.addr := Nat.add_sub_cancel x.addr sizeMarker
  rw [haddr, hs.heads x hx] at hputs
  exact ⟨_, rfl, hputs⟩

theorem splitRemainder_spec (mem : Bytes) (x : Block) (needed total : ℕ) (hr : h.InRange)
    (hlow : h.heap ≤ x.addr) (hlt : needed + sizeMarker ≤ total)
    (htotal : x.addr + sizeMarker + total ≤ h.heap + h.heapSize) :
    ∃ mem', (h.bufferPtr x).splitRemainder mem needed total = mem' ∧
      Puts mem mem' (x.addr + sizeMarker + needed) (total - needed - sizeMarker) false := by
  have hmarker : sizeMarker = 4 := rfl
  have hfin := hr.fin
  have hheap := hr.size
  have hfreed : sub32 (total - needed) sizeMarker = total - needed - sizeMarker :=
    sub32_of_le (by omega) (by omega)
  have hptr : u32 ((h.bufferPtr x).ptr + needed + sizeMarker) =
      x.addr + sizeMarker + needed + sizeMarker := u32_of_lt (by show x.addr + _ + _ + _ < _; omega)
  have hputs := puts_make_markFree mem (x.addr + sizeMarker + needed + sizeMarker) h.fin
    (show total - needed - sizeMarker < 2 ^ 31 by omega)
  rw [BufferPtr.splitRemainder, if_pos (by omega), hfreed, hptr]
  exact ⟨_, rfl, hputs⟩

/-- A block takes in what follows it, up to the size that is needed.  If the free blocks
behind it are the last ones, and too small, the heap must be used up. -/
theorem mergeContiguous_spec (hs : Chained mem h (xs ++ x :: ys)) (hneeded : needed % 8 = 4)
    (hx : x.used = true → x.size ≤ needed)
    (hstop : h.offset = h.heapSize ∨ x.addr + sizeMarker + needed ≤ h.heap + h.offset ∨
      ∃ y ∈ ys, y.used = true) (all : Bool) :
    (all = true ∧ (h.bufferPtr x).mergeContiguous mem needed all =
        (false, mem, h.bufferPtr x)) ∨
      ∃ mem' size' rest, (h.bufferPtr x).mergeContiguous mem needed all =
          (size' == needed, mem', h.bufferPtr { x with size := size' }) ∧
        Merged mem mem' h xs x ys size' needed rest ∧ (all = true → size' = needed) := by
  have hmarker : sizeMarker = 4 := rfl
  have hxmem : x ∈ xs ++ x :: ys := by simp
  have hr := hs.inRange
  have hfin := hr.fin
  have hsize := hr.size
  have hoffset := hr.offset
  have hbounds := hs.bounds hxmem
  obtain ⟨c, -, -, hys⟩ := tiles_append.mp hs.tiles
  obtain ⟨fs, zs, hcollected⟩ : ∃ fs zs, Collected h.fin needed (x.addr + sizeMarker) x.size ys
      fs zs (h.heap + h.offset) (BufferPtr.possibleSize mem (h.bufferPtr x).ptr
        (h.bufferPtr x).heapEnd needed (h.bufferPtr x).heapEnd (h.bufferPtr x).size) :=
    possibleSize_spec (hr.fin_eq ▸ (by omega)) (hr.fin_eq ▸ (by omega)) hys
      (hs.heads.mono fun y hy => by simp [hy])
      (hstop.imp_left fun hfull => by rw [hfull, hr.fin_eq]) (Nat.le_add_left _ _)
  rw [BufferPtr.mergeContiguous]
  generalize BufferPtr.possibleSize mem (h.bufferPtr x).ptr (h.bufferPtr x).heapEnd needed
    (h.bufferPtr x).heapEnd (h.bufferPtr x).size = total at hcollected ⊢
  dsimp only
  obtain ⟨rfl, hfree, hfs, -⟩ := hcollected
  have hge := hfs.le
  have hmod := tiles_whole hfs fun f hf => hs.whole f (by simp [hf])
  have htotal : x.addr + sizeMarker + total ≤ h.heap + h.offset := by
    obtain ⟨d, hd, hzs⟩ := tiles_append.mp hys
    exact (hfs.end_unique hd ▸ hzs).le
  split
  · rename_i hall
    exact Or.inl ⟨hall.1, rfl⟩
  split
  · rename_i hall
    exact Or.inl ⟨hall.1, rfl⟩
  rename_i hall
  right
  by_cases hless : total < needed
  · obtain ⟨mem', hset, hputs⟩ := hs.setSize hxmem (show total < 2 ^ 31 by omega)
    refine ⟨mem', total, zs, ?_, merged_whole hs hfs hfree hputs, fun h => absurd ⟨h, hless⟩ hall⟩
    rw [if_pos hless, hset, BufferPtr.splitRemainder, if_neg hless.asymm]
  · obtain ⟨mem', hset, hputs⟩ := hs.setSize hxmem (show needed < 2 ^ 31 by omega)
    by_cases hcut : needed < total
    · obtain ⟨mem'', hsplit, hputs'⟩ :=
        splitRemainder_spec mem' { x with size := needed } needed total hr hbounds.1 (by omega)
          (by show x.addr + _ + _ ≤ _; omega)
      refine ⟨mem'', needed, _, ?_, merged_cut hs hfs hfree hx hneeded hcut hputs hputs',
        fun _ => rfl⟩
      rw [if_neg hless, hset, hsplit]
    · obtain rfl : needed = total := by omega
      refine ⟨mem', needed, zs, ?_, merged_whole hs hfs hfree hputs, fun _ => rfl⟩
      rw [if_neg hless, hset, BufferPtr.splitRemainder, if_neg hcut]

end Xidata.Allocator
