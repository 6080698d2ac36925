import Xidata.Allocator.Blocks

/-!
The member functions of one heap, each by what it does to the blocks: a block is taken from
behind the offset or from among the free ones, grows or shrinks where it is, or becomes
free.  All but the last two leave every byte of the blocks in use alone.
-/

namespace Xidata.Allocator

open ByteMemory BlockChain

variable {mem mem' mem'' : Bytes} {i size needed : ℕ} {used : Bool} {h h' : Memory}
  {bs bs' xs ys zs rest : List Block} {x y : Block}

/-- A heap gives the block behind its offset, if there is room. -/
theorem malloc_cases (hs : Chained mem h bs) (hwhole : size % 8 = 4)
    (hlt : h.offset + size + sizeMarker < 2 ^ 32) :
    (h.malloc mem size = none ∧ h.heapSize < h.offset + size + sizeMarker) ∨
      ∃ mem', h.malloc mem size = some (h.heap + h.offset + sizeMarker, mem',
          { h with offset := h.offset + size + sizeMarker }) ∧
        h.offset + size + sizeMarker ≤ h.heapSize ∧
        Puts mem mem' (h.heap + h.offset) size true := by
  have hr := hs.inRange
  have hfin := hr.fin
  have hsize := hr.size
  have hmarker : sizeMarker = 4 := rfl
  have hused : u32 (h.offset + size + sizeMarker) = h.offset + size + sizeMarker :=
    u32_of_lt (by omega)
  by_cases hroom : h.heapSize < h.offset + size + sizeMarker
  · left
    refine ⟨?_, hroom⟩
    rw [Memory.malloc, hused, if_pos hroom]
  · right
    have hptr : u32 (h.heap + (h.offset + sizeMarker)) = h.heap + h.offset + sizeMarker := by
      rw [← add_assoc]
      exact u32_of_lt (by omega)
    have hputs := puts_make_markAlloc mem (h.heap + h.offset + sizeMarker) h.fin
      (show size < 2 ^ 31 by omega)
    refine ⟨_, ?_, by omega, hputs⟩
    rw [Memory.malloc, hused, if_neg hroom, hptr]
    rfl

/-- The rest of a heap becomes a free block. -/
theorem cleanupRemaining_spec (hs : Chained mem h bs) :
    ∃ mem' bs', h.cleanupRemaining mem = (mem', { h with offset := h.heapSize }) ∧
      Chained mem' { h with offset := h.heapSize } bs' ∧ Keeps bs bs' ∧ Frame mem mem' h bs := by
  have hr := hs.inRange
  have hfin := hr.fin
  have hsize := hr.size
  have hle := hr.offset
  have hmarker : sizeMarker = 4 := rfl
  by_cases hfull : h.offset = h.heapSize
  · obtain ⟨heapSize, heap, offset⟩ := h
    obtain rfl : offset = heapSize := hfull
    exact ⟨mem, bs, if_pos rfl, hs, Keeps.refl bs, Frame.refl mem _ bs⟩
  · have hoffset := hr.wholeOffset
    have hwhole := hr.whole
    have hrest : sub32 (sub32 h.heapSize h.offset) sizeMarker =
        h.heapSize - h.offset - sizeMarker := by
      rw [sub32_of_le hle (by omega), sub32_of_le (by omega) (by omega)]
    have hptr : u32 (h.heap + (h.offset + sizeMarker)) = h.heap + h.offset + sizeMarker := by
      rw [← add_assoc]
      exact u32_of_lt (by omega)
    have hputs := puts_make_markFree mem (h.heap + h.offset + sizeMarker) h.fin
      (show h.heapSize - h.offset - sizeMarker < 2 ^ 31 by omega)
    have hend : h.offset + (h.heapSize - h.offset - sizeMarker) + sizeMarker = h.heapSize := by
      omega
    obtain ⟨hpush, hframe⟩ := hs.push hputs (by omega) (by omega)
    rw [hend] at hpush
    refine ⟨_, _, ?_, hpush, keeps_append bs _, hframe⟩
    rw [Memory.cleanupRemaining, if_neg hfull, hrest, hptr]

/-! ### One block among others -/

/-- The state of a block is set. -/
theorem Chained.mark (hs : Chained mem h (xs ++ x :: ys))
    (hputs : Puts mem mem' x.addr x.size used) :
    Chained mem' h (xs ++ { x with used } :: ys) ∧ Frame mem mem' h (xs ++ x :: ys) := by
  have hmarker : sizeMarker = 4 := rfl
  have hbounds := hs.bounds (x := x) (by simp)
  have hoffset := hs.inRange.offset
  have hnil : Tiles sizeMarker (x.addr + sizeMarker + x.size) [] (x.addr + sizeMarker + x.size) :=
    rfl
  constructor
  · refine Chained.replace [] [{ x with used }] hs hnil ⟨rfl, rfl⟩ ?_ ?_
      fun i hi => ?_
    · exact fun y hy => List.mem_singleton.mp hy ▸ hputs.header
    · exact fun y hy => List.mem_singleton.mp hy ▸ hbounds.2.2
    · exact hputs.outside i (by omega)
  · refine hputs.frame hbounds.1 (by omega) fun i hlow hhigh => ?_
    exact Chained.not_held_run [] hs hnil (fun f hf => (by cases hf)) hlow (by omega)
      fun _ => Or.inl hhigh

theorem keeps_replace {x' : Block} (hx : x.used = false) (hkeeps : Keeps ys rest) :
    Keeps (xs ++ x :: ys) (xs ++ x' :: rest) := by
  intro y hy hused
  rcases List.mem_append.mp hy with hy | hy
  · exact List.mem_append_left _ hy
  · rcases List.mem_cons.mp hy with rfl | hy
    · rw [hx] at hused
      cases hused
    · exact List.mem_append_right _ (List.mem_cons_of_mem _ (hkeeps y hy hused))

/-- The next block of a heap that is used up. -/
theorem Chained.nextPtr (hs : Chained mem h (xs ++ x :: ys)) (hfull : h.offset = h.heapSize) :
    (h.bufferPtr x).nextPtr = ys.head?.map fun y => y.addr + sizeMarker := by
  have hmarker : sizeMarker = 4 := rfl
  have hr := hs.inRange
  have hfin := hr.fin
  have hsize := hr.size
  have hbounds := hs.bounds (x := x) (by simp)
  obtain ⟨c, -, -, hys⟩ := tiles_append.mp hs.tiles
  have hend : (h.bufferPtr x).fin = x.addr + sizeMarker + x.size := u32_of_lt (by
    show x.addr + _ + x.size < _
    omega)
  have hheapEnd : (h.bufferPtr x).heapEnd = h.heap + h.heapSize := hr.fin_eq
  rw [BufferPtr.nextPtr, hend, hheapEnd]
  cases ys with
  | nil =>
      have hlast : x.addr + sizeMarker + x.size = h.heap + h.offset := hys
      rw [u32_of_lt (by omega), if_pos (by omega), List.head?_nil, Option.map_none]
  | cons y ys =>
      have hnext := hys.1
      have hle := hys.2.le
      have hsome := hs.whole y (by simp)
      rw [u32_of_lt (by omega), if_neg (by omega), List.head?_cons, Option.map_some, hnext]

/-! ### Blocks that were freed -/

/-- A search for a block among those of a heap: the blocks in use stay, with what they
hold, and a block that is found was none of them. -/
structure Finds (mem mem' : Bytes) (h h' : Memory) (bs bs' : List Block) (size : ℕ)
    (r : Option ℕ) : Prop where
  chained : Chained mem' h' bs'
  keeps : Keeps bs bs'
  frame : Frame mem mem' h bs
  found : ∀ p, r = some p → ∃ y ∈ bs', y.used = true ∧ p = y.addr + sizeMarker ∧ size ≤ y.size ∧
    ∀ z ∈ bs, z.used = true → z.addr ≠ y.addr

/-- A search after the blocks in use have been kept. -/
theorem Finds.after {r : Option ℕ} {bs'' : List Block}
    (hfinds : Finds mem' mem'' h h' bs' bs'' size r) (hkeeps : Keeps bs bs')
    (hframe : Frame mem mem' h bs) : Finds mem mem'' h h' bs bs'' size r :=
  ⟨hfinds.chained, hkeeps.trans hfinds.keeps, hframe.trans hkeeps hfinds.frame, fun p hp =>
    let ⟨y, hy, hused, hptr, hsize, hnew⟩ := hfinds.found p hp
    ⟨y, hy, hused, hptr, hsize, fun z hz hzused => hnew z (hkeeps z hz hzused) hzused⟩⟩

theorem Finds.none (hs : Chained mem h bs) : Finds mem mem h h bs bs size none :=
  ⟨hs, Keeps.refl bs, Frame.refl mem h bs, fun p hp => (by cases hp)⟩

/-- A free block that is large enough after merging is the one that is found. -/
theorem Merged.finds (hmerged : Merged mem mem' h xs x ys size size rest)
    (hs : Chained mem h (xs ++ x :: ys)) (hused : x.used = false) :
    Puts mem' ((h.bufferPtr { x with size }).markAlloc mem') x.addr size true ∧
      Finds mem ((h.bufferPtr { x with size }).markAlloc mem') h h (xs ++ x :: ys)
        (xs ++ ⟨x.addr, size, true⟩ :: rest) size (some (x.addr + sizeMarker)) := by
  have hhead : (header mem' x.addr).1 = size :=
    congrArg Prod.fst (hmerged.chained.heads { x with size } (by simp))
  have hmark : Puts mem' ((h.bufferPtr { x with size }).markAlloc mem') x.addr size true :=
    puts_markAlloc (b := h.bufferPtr { x with size }) hhead
  obtain ⟨hchained, hframe⟩ := hmerged.chained.mark hmark
  have hkeeps : Keeps (xs ++ x :: ys) (xs ++ { x with size } :: rest) :=
    keeps_replace hused hmerged.keeps
  refine ⟨hmark, hchained, keeps_replace hused hmerged.keeps, hmerged.frame.trans hkeeps hframe, ?_⟩
  intro p hp
  obtain rfl := Option.some.inj hp
  refine ⟨⟨x.addr, size, true⟩, by simp, rfl, rfl, le_rfl, fun z hz hzused heq => ?_⟩
  obtain rfl := hs.tiles.eq_of_addr (by decide) hz (y := x) (by simp) heq
  rw [hused] at hzused
  cases hzused

/-- The search goes through the blocks of a heap that is used up. -/
theorem searchFreed_spec (xs ys : List Block) (turns : ℕ) (hs : Chained mem h (xs ++ ys))
    (hfull : h.offset = h.heapSize) (hwhole : size % 8 = 4)
    (hturns : ys.length < turns) :
    ∃ mem' bs' r, Memory.searchFreed h.fin size turns mem
        (ys.head?.map fun y => y.addr + sizeMarker) = (r, mem') ∧
      Finds mem mem' h h (xs ++ ys) bs' size r := by
  induction turns generalizing mem xs ys with
  | zero => omega
  | succ turns ih =>
      cases ys with
      | nil => exact ⟨mem, xs ++ [], none, rfl, Finds.none hs⟩
      | cons x ys =>
          have hxmem : x ∈ xs ++ x :: ys := by simp
          rw [List.length_cons] at hturns
          rw [List.head?_cons, Option.map_some, Memory.searchFreed]
          dsimp only
          rw [hs.read hxmem, hs.isAlloc hxmem]
          cases hused : x.used with
          | true =>
              -- the search passes over a block in use
              rw [if_pos rfl, hs.nextPtr hfull]
              rw [List.append_cons] at hs ⊢
              exact ih _ _ hs (by omega)
          | false =>
              rw [if_neg Bool.false_ne_true]
              obtain ⟨hall, -⟩ | ⟨mem', size', rest, hmerge, hmerged, -⟩ :=
                mergeContiguous_spec hs hwhole (fun h => by rw [hused] at h; cases h)
                  (Or.inl hfull) false
              · cases hall
              rw [hmerge]
              dsimp only
              have hkeeps : Keeps (xs ++ x :: ys) (xs ++ { x with size := size' } :: rest) :=
                keeps_replace hused hmerged.keeps
              by_cases hsize : size' = size
              · subst hsize
                obtain ⟨hmark, hfinds⟩ := hmerged.finds hs hused
                exact ⟨_, _, _, if_pos (beq_self_eq_true size'), hfinds⟩
              · have hlength := hmerged.shorter hsize
                rw [if_neg (by simpa using hsize), hmerged.chained.nextPtr hfull]
                have hchained := hmerged.chained
                rw [List.append_cons xs { x with size := size' } rest] at hchained hkeeps
                obtain ⟨mem'', bs', r, hsearch, hfinds⟩ := ih _ _ hchained (by omega)
                exact ⟨mem'', bs', r, hsearch, hfinds.after hkeeps hmerged.frame⟩

theorem mallocFromFreed_spec (hs : Chained mem h bs) (hfull : h.offset = h.heapSize)
    (hpos : 0 < h.heapSize) (hwhole : size % 8 = 4) :
    ∃ mem' bs' r, h.mallocFromFreed mem size = .ok (r, mem') ∧
      Finds mem mem' h h bs bs' size r := by
  have hmarker : sizeMarker = 4 := rfl
  have hr := hs.inRange
  have hfin := hr.fin
  have hlength := hs.tiles.length_le
  cases bs with
  | nil =>
      have hempty : h.heap = h.heap + h.offset := hs.tiles
      omega
  | cons x bs =>
      rw [hmarker] at hlength
      obtain ⟨mem', bs', r, hsearch, hfinds⟩ := searchFreed_spec [] (x :: bs)
        (h.heapSize + 1) hs hfull hwhole (by omega)
      refine ⟨mem', bs', r, ?_, hfinds⟩
      have haddr : x.addr = h.heap := hs.tiles.1
      rw [Memory.mallocFromFreed, if_pos hfull, ← hsearch, List.head?_cons, Option.map_some,
        haddr, u32_of_lt (by omega)]

/-! ### Blocks in use -/

theorem free_spec (hs : Chained mem h (xs ++ x :: ys)) :
    ∃ mem', h.free mem (x.addr + sizeMarker) = mem' ∧
      Chained mem' h (xs ++ { x with used := false } :: ys) ∧
      Frame mem mem' h (xs ++ x :: ys) := by
  have hxmem : x ∈ xs ++ x :: ys := by simp
  have hhead : (header mem x.addr).1 = x.size := congrArg Prod.fst (hs.heads x hxmem)
  have hmark : Puts mem ((h.bufferPtr x).markFree mem) x.addr x.size false :=
    puts_markFree (b := h.bufferPtr x) hhead
  refine ⟨_, ?_, hs.mark hmark⟩
  rw [Memory.free, hs.read hxmem]

/-- What resizing does when it succeeds: the block stays where it is, with room enough, and
what it held stays as far as it is asked for. -/
structure Resized (mem mem' : Bytes) (h h' : Memory) (xs : List Block) (x : Block)
    (ys : List Block) (size : ℕ) (x' : Block) (rest : List Block) : Prop where
  chained : Chained mem' h' (xs ++ x' :: rest)
  heap : h'.heap = h.heap
  heapSize : h'.heapSize = h.heapSize
  offset : h.offset ≤ h'.offset
  addr : x'.addr = x.addr
  used : x'.used = true
  size_le : size ≤ x'.size
  keeps : Keeps ys rest
  frame : ∀ i, h.Outside i ∨ Held sizeMarker (xs ++ x :: ys) i →
    i < x.addr + sizeMarker + size ∨ x.addr + sizeMarker + x.size ≤ i → mem' i = mem i

/-- The block shrinks, although its header does not tell: the free block that is written
lies within it. -/
theorem resized_shrink (hs : Chained mem h (xs ++ x :: ys)) (hused : x.used = true)
    (hwhole : size % 8 = 4) (hlt : size < x.size)
    (hputs : Puts mem mem' (x.addr + sizeMarker + size) needed used) :
    Resized mem mem' h h xs x ys size x ys := by
  have hmarker : sizeMarker = 4 := rfl
  have hxmem : x ∈ xs ++ x :: ys := by simp
  have hmod := hs.whole x hxmem
  refine ⟨hs.congr fun i hlow hhigh hheld => ?_, rfl, rfl, le_rfl, rfl, hused, hlt.le,
    Keeps.refl ys,
    fun i hi hout => hputs.outside i (by omega)⟩
  refine hputs.outside i ?_
  by_contra hin
  exact hheld ⟨x, hxmem, hused, by omega, by omega⟩

/-- The last block grows into memory that was not handed out. -/
theorem resized_last (hs : Chained mem h (xs ++ [x])) (hused : x.used = true)
    (hwhole : size % 8 = 4) (hle : x.size ≤ size)
    (hroom : x.addr + sizeMarker + size ≤ h.heap + h.heapSize)
    (hputs : Puts mem mem' x.addr size true) :
    Resized mem mem' h { h with offset := h.offset + (size - x.size) } xs x [] size
      { x with size } [] := by
  have hmarker : sizeMarker = 4 := rfl
  have hr := hs.inRange
  have hxmem : x ∈ xs ++ [x] := by simp
  have hbounds := hs.bounds hxmem
  have hwholeOffset := hr.wholeOffset
  obtain ⟨c, hxs, rfl, hend⟩ := tiles_append.mp hs.tiles
  have hlast : x.addr + sizeMarker + x.size = h.heap + h.offset := hend
  refine ⟨⟨⟨hr.heap, hr.fin, hr.size, hr.whole, ?_, ?_⟩, ?_, ?_, ?_⟩, rfl, rfl,
    Nat.le_add_right _ _, rfl, hused, le_rfl, Keeps.refl [], fun i hi hout => ?_⟩
  · show h.offset + (size - x.size) ≤ h.heapSize
    omega
  · show (h.offset + (size - x.size)) % 8 = 0
    omega
  · refine tiles_append.mpr ⟨_, hxs, rfl, ?_⟩
    show x.addr + sizeMarker + size = h.heap + (h.offset + (size - x.size))
    omega
  · intro y hy
    rcases List.mem_append.mp hy with hy | hy
    · have hfar := (hxs.bounds hy).2
      exact (hputs.other (by omega)).trans (hs.heads y (by simp [hy]))
    · obtain rfl := List.mem_singleton.mp hy
      rw [hputs.header]
      exact congrArg _ hused.symm
  · intro y hy
    rcases List.mem_append.mp hy with hy | hy
    · exact hs.whole y (by simp [hy])
    · obtain rfl := List.mem_singleton.mp hy
      exact hwhole
  · have hframe : Frame mem mem' h (xs ++ [x]) :=
      hputs.frame hbounds.1 (by omega) fun j hlow hhigh =>
        Chained.not_held_run [] hs rfl (fun f hf => (by cases hf)) hlow (by omega)
          fun _ => Or.inl hhigh
    exact hframe i hi

/-- The block takes in free blocks behind it. -/
theorem Merged.resized (hmerged : Merged mem mem' h xs x ys size size rest)
    (hs : Chained mem h (xs ++ x :: ys)) (hused : x.used = true) :
    Resized mem ((h.bufferPtr { x with size }).markAlloc mem') h h xs x ys size
      { x with size } rest := by
  have hhead : (header mem' x.addr).1 = size :=
    congrArg Prod.fst (hmerged.chained.heads { x with size } (by simp))
  have hmark : Puts mem' ((h.bufferPtr { x with size }).markAlloc mem') x.addr size true :=
    puts_markAlloc (b := h.bufferPtr { x with size }) hhead
  obtain ⟨hchained, hframe⟩ := hmerged.chained.mark hmark
  have hsame : ({ x with size, used := true } : Block) = { x with size } := by rw [hused]
  refine ⟨?_, rfl, rfl, le_rfl, rfl, hused, le_rfl, hmerged.keeps, fun i hi hout => ?_⟩
  · rw [← hsame]
    exact hchained
  · refine (hframe i (hi.imp_right fun hheld => ?_)).trans (hmerged.frame i hi)
    obtain ⟨y, hy, hyused, hlow, hhigh⟩ := hheld
    rcases List.mem_append.mp hy with hy | hy
    · exact ⟨y, List.mem_append_left _ hy, hyused, hlow, hhigh⟩
    · rcases List.mem_cons.mp hy with rfl | hy
      · refine ⟨{ y with size }, by simp, hused, hlow, ?_⟩
        show i < y.addr + sizeMarker + size
        omega
      · exact ⟨y, by simp [hmerged.keeps y hy hyused], hyused, hlow, hhigh⟩

/-- A block in use either cannot be resized in place, and nothing happens, or it is.  It may
not be the last block if the size exceeds every address of the heap, nor end in free blocks
that are the last ones and too small, with enough memory behind them. -/
theorem reallocInPlace_spec (hs : Chained mem h (xs ++ x :: ys)) (hused : x.used = true)
    (hwhole : size % 8 = 4)
    (hlast : x.size < size → ys = [] → size ≤ h.heap + h.heapSize)
    (hinner : x.size < size → ys ≠ [] → (∀ y ∈ ys, y.used = false) →
      h.heap + h.offset < x.addr + sizeMarker + size →
        h.heap + h.heapSize < x.addr + sizeMarker + size) :
    h.reallocInPlace mem (x.addr + sizeMarker) size = (none, x.size, mem, h) ∨
      ∃ mem' h' x' rest, h.reallocInPlace mem (x.addr + sizeMarker) size =
          (some (x.addr + sizeMarker), x.size, mem', h') ∧
        Resized mem mem' h h' xs x ys size x' rest := by
  have hmarker : sizeMarker = 4 := rfl
  have hr := hs.inRange
  have hfin := hr.fin
  have hsize := hr.size
  have hoffset := hr.offset
  have hxmem : x ∈ xs ++ x :: ys := by simp
  have hbounds := hs.bounds hxmem
  have hend : (h.bufferPtr x).fin = x.addr + sizeMarker + x.size := u32_of_lt (by
    show x.addr + _ + x.size < _
    omega)
  have horig : (h.bufferPtr x).size = x.size := rfl
  rw [Memory.reallocInPlace]
  dsimp only
  rw [hs.read hxmem, hend, hr.fin_eq, horig, if_neg (by omega)]
  by_cases hfits : sub32 (h.heap + h.heapSize) size < x.addr + sizeMarker
  · rw [if_pos hfits]
    exact Or.inl rfl
  rw [if_neg hfits]
  -- the test means what it says unless the size exceeds every address of the heap
  have hroom : size ≤ h.heap + h.heapSize → x.addr + sizeMarker + size ≤ h.heap + h.heapSize := by
    intro hle
    rw [sub32_of_le hle (by omega)] at hfits
    omega
  by_cases hshrink : size < x.size
  · rw [if_pos hshrink, u32_of_lt (by omega)]
    have hputs := puts_make_markFree mem (x.addr + sizeMarker + size + sizeMarker)
      (h.heap + h.heapSize) (show x.size - size < 2 ^ 31 by omega)
    exact Or.inr ⟨_, h, x, ys, rfl, resized_shrink hs hused hwhole hshrink hputs⟩
  rw [if_neg hshrink, u32_of_lt (show h.heap + h.offset < 2 ^ 32 by omega)]
  obtain ⟨c, -, -, hys⟩ := tiles_append.mp hs.tiles
  cases ys with
  | nil =>
      have hfinal : x.addr + sizeMarker + x.size = h.heap + h.offset := hys
      have hle : x.addr + sizeMarker + size ≤ h.heap + h.heapSize := by
        rcases Nat.lt_or_ge x.size size with hgrow | hsame
        · exact hroom (hlast hgrow rfl)
        · omega
      obtain ⟨mem', hset, hputs⟩ := hs.setSize hxmem (show size < 2 ^ 31 by omega)
      rw [hused] at hputs
      rw [if_pos hfinal, hset, u32_of_lt (by omega)]
      exact Or.inr ⟨mem', _, _, [], rfl,
        resized_last hs hused hwhole (Nat.le_of_not_lt hshrink) hle hputs⟩
  | cons y ys =>
      have hnext := hys.2.le
      have haddr := hys.1
      rw [if_neg (by omega)]
      by_cases hsame : size = x.size
      · rw [if_pos hsame]
        exact Or.inr ⟨mem, h, x, y :: ys, rfl, hs, rfl, rfl, le_rfl, rfl, hused, hsame.le,
          Keeps.refl _, fun _ _ _ => rfl⟩
      rw [if_neg hsame]
      by_cases hwrap : size ≤ h.heap + h.heapSize
      · have hstop : h.offset = h.heapSize ∨ x.addr + sizeMarker + size ≤ h.heap + h.offset ∨
            ∃ z ∈ y :: ys, z.used = true := by
          by_cases hfree : ∀ z ∈ y :: ys, z.used = false
          · have himp := hinner (by omega) (List.cons_ne_nil y ys) hfree
            have hle := hroom hwrap
            omega
          · obtain ⟨z, hz⟩ := not_forall.mp hfree
            obtain ⟨hz, hzused⟩ := Classical.not_imp.mp hz
            exact Or.inr (Or.inr ⟨z, hz, (Bool.not_eq_false _).mp hzused⟩)
        obtain ⟨-, hmerge⟩ | ⟨mem', size', rest, hmerge, hmerged, hall⟩ :=
          mergeContiguous_spec hs hwhole (fun _ => by omega) hstop true
        · rw [hmerge]
          exact Or.inl rfl
        · obtain rfl := hall rfl
          rw [hmerge]
          exact Or.inr ⟨_, h, _, rest, if_pos (beq_self_eq_true size'), hmerged.resized hs hused⟩
      · -- no block is as large as that
        have hmerge : (h.bufferPtr x).mergeContiguous mem size true =
            (false, mem, h.bufferPtr x) := by
          have hptr : sub32 (h.bufferPtr x).heapEnd (h.bufferPtr x).ptr =
              h.heap + h.heapSize - (x.addr + sizeMarker) := by
            show sub32 h.fin (x.addr + sizeMarker) = _
            rw [hr.fin_eq, sub32_of_le (by omega) (by omega)]
          rw [BufferPtr.mergeContiguous, if_pos ⟨rfl, by omega⟩]
        rw [hmerge]
        exact Or.inl rfl

end Xidata.Allocator
