import Xidata.Allocator.Memory

/-!
The heaps of the manager.  They lie apart from each other, each with its own blocks.  The
first one is the array of the allocator; the last one is the active one, until the machine
refuses to let the memory grow: then all heaps are used up, and blocks are found only where
others were freed.
-/

namespace Xidata.Allocator

open ByteMemory BlockChain

variable {mem mem' mem'' : Bytes} {i j k k' k'' size : ℕ} {h h' : Memory}
  {heaps : ℕ → Memory} {bs bs' bs'' : ℕ → List Block} {cs : List Block}

/-! ### Heaps apart from each other -/

/-- The first `k` slots hold heaps with the blocks `bs`, the others none. -/
structure Heaps (mem : Bytes) (heaps : ℕ → Memory) (k : ℕ) (bs : ℕ → List Block) : Prop where
  chained : ∀ i < k, Chained mem (heaps i) (bs i)
  pos : ∀ i < k, 0 < (heaps i).heapSize
  unused : ∀ i, k ≤ i → heaps i = .uninit
  apart : ∀ i j, i < j → j < k → (heaps i).heap + (heaps i).heapSize ≤ (heaps j).heap

/-- What lies in one heap lies outside of the others. -/
theorem Heaps.outside (hs : Heaps mem heaps k bs) (hi : i < k) (hj : j < k) (hne : j ≠ i) {a : ℕ}
    (hlow : (heaps j).heap ≤ a) (hhigh : a < (heaps j).heap + (heaps j).heapSize) :
    (heaps i).Outside a := by
  rcases Nat.lt_or_gt_of_ne hne with hlt | hlt
  · exact Or.inl (hhigh.trans_le (hs.apart j i hlt hi))
  · exact Or.inr ((hs.apart i j hlt hj).trans hlow)

theorem Chained.in_heap {x : Block} (hs : Chained mem h cs) (hx : x ∈ cs) {a : ℕ}
    (hlow : x.addr ≤ a) (hhigh : a < x.addr + sizeMarker + x.size) :
    h.heap ≤ a ∧ a < h.heap + h.heapSize := by
  have hbounds := hs.bounds hx
  have hoffset := hs.inRange.offset
  omega

/-- The address is in a block in use of one of the heaps. -/
def InUse (k : ℕ) (bs : ℕ → List Block) (a : ℕ) : Prop := ∃ i < k, Held sizeMarker (bs i) a

/-- One heap has changed, in its own memory. -/
theorem Heaps.update (hs : Heaps mem heaps k bs) (hi : i < k) (hchained : Chained mem' h' cs)
    (hheap : h'.heap = (heaps i).heap) (hsize : h'.heapSize = (heaps i).heapSize)
    (hout : ∀ a, (heaps i).Outside a → mem' a = mem a) :
    Heaps mem' (Function.update heaps i h') k (Function.update bs i cs) := by
  have hend : ∀ j, ((Function.update heaps i h') j).heap = (heaps j).heap ∧
      ((Function.update heaps i h') j).heapSize = (heaps j).heapSize := by
    intro j
    by_cases hj : j = i
    · subst hj
      rw [Function.update_self]
      exact ⟨hheap, hsize⟩
    · rw [Function.update_of_ne hj]
      exact ⟨rfl, rfl⟩
  refine ⟨fun j hj => ?_, fun j hj => (hend j).2 ▸ hs.pos j hj, fun j hj => ?_, ?_⟩
  · by_cases hne : j = i
    · subst hne
      rw [Function.update_self, Function.update_self]
      exact hchained
    · rw [Function.update_of_ne hne, Function.update_of_ne hne]
      exact (hs.chained j hj).congr fun a hlow hhigh _ => hout a (hs.outside hi hj hne hlow hhigh)
  · rw [Function.update_of_ne (by omega)]
    exact hs.unused j hj
  · intro j j' hlt hj'
    rw [(hend j).1, (hend j).2, (hend j').1]
    exact hs.apart j j' hlt hj'

/-- The last heap grows at its end. -/
theorem Heaps.expand {n : ℕ} (hs : Heaps mem heaps (k + 1) bs)
    (hfin : (heaps k).heap + ((heaps k).heapSize + n) + sizeMarker < 2 ^ 32)
    (hsize : (heaps k).heapSize + n < 2 ^ 31) (hwhole : n % 8 = 0) :
    Heaps mem (Function.update heaps k { heaps k with heapSize := (heaps k).heapSize + n })
      (k + 1) bs := by
  refine ⟨fun j hj => ?_, fun j hj => ?_, fun j hj => ?_, fun j j' hlt hj' => ?_⟩
  · by_cases hne : j = k
    · subst hne
      have hc := hs.chained j hj
      have hr := hc.inRange
      have hmod := hr.whole
      rw [Function.update_self]
      refine ⟨⟨hr.heap, hfin, hsize, ?_, hr.offset.trans (Nat.le_add_right _ n), hr.wholeOffset⟩,
        hc.tiles, hc.heads, hc.whole⟩
      show ((heaps j).heapSize + n) % 8 = 0
      omega
    · rw [Function.update_of_ne hne]
      exact hs.chained j hj
  · by_cases hne : j = k
    · subst hne
      rw [Function.update_self]
      exact (hs.pos j hj).trans_le (Nat.le_add_right _ n)
    · rw [Function.update_of_ne hne]
      exact hs.pos j hj
  · rw [Function.update_of_ne (by omega)]
    exact hs.unused j hj
  · rw [Function.update_of_ne (by omega)]
    by_cases hne : j' = k
    · subst hne
      rw [Function.update_self]
      exact hs.apart j j' hlt hj'
    · rw [Function.update_of_ne hne]
      exact hs.apart j j' hlt hj'

/-- A heap is set up behind the others. -/
theorem Heaps.init (hs : Heaps mem heaps k bs) (hr : h.InRange) (hempty : h.offset = 0)
    (hpos : 0 < h.heapSize) (hend : ∀ i < k, (heaps i).heap + (heaps i).heapSize ≤ h.heap) :
    Heaps mem (Function.update heaps k h) (k + 1) (Function.update bs k []) := by
  refine ⟨fun j hj => ?_, fun j hj => ?_, fun j hj => ?_, fun j j' hlt hj' => ?_⟩
  · by_cases hne : j = k
    · subst hne
      rw [Function.update_self, Function.update_self]
      refine ⟨hr, ?_, fun x hx => (by cases hx), fun x hx => (by cases hx)⟩
      rw [tiles_nil, hempty, Nat.add_zero]
    · rw [Function.update_of_ne hne, Function.update_of_ne hne]
      exact hs.chained j (by omega)
  · by_cases hne : j = k
    · subst hne
      rw [Function.update_self]
      exact hpos
    · rw [Function.update_of_ne hne]
      exact hs.pos j (by omega)
  · rw [Function.update_of_ne (by omega)]
    exact hs.unused j (by omega)
  · rw [Function.update_of_ne (show j ≠ k by omega)]
    by_cases hne : j' = k
    · subst hne
      rw [Function.update_self]
      exact hend j hlt
    · rw [Function.update_of_ne hne]
      exact hs.apart j j' hlt (by omega)

/-! ### Runs of the manager -/

/-- Blocks in use stay, and so does what they hold; the lowest addresses are never written. -/
structure Evolves (mem mem' : Bytes) (k k' : ℕ) (bs bs' : ℕ → List Block) : Prop where
  le : k ≤ k'
  keeps : ∀ i < k, Keeps (bs i) (bs' i)
  frame : ∀ a, a < sizeMarker ∨ InUse k bs a → mem' a = mem a

theorem Evolves.refl (mem : Bytes) (k : ℕ) (bs : ℕ → List Block) : Evolves mem mem k k bs bs :=
  ⟨le_rfl, fun i _ => Keeps.refl (bs i), fun _ _ => rfl⟩

theorem InUse.mono {a : ℕ} (h : InUse k bs a) (hle : k ≤ k')
    (hkeeps : ∀ i < k, Keeps (bs i) (bs' i)) : InUse k' bs' a := by
  obtain ⟨i, hi, hheld⟩ := h
  exact ⟨i, hi.trans_le hle, hheld.mono (hkeeps i hi)⟩

theorem Evolves.trans (h : Evolves mem mem' k k' bs bs') (h' : Evolves mem' mem'' k' k'' bs' bs'') :
    Evolves mem mem'' k k'' bs bs'' := by
  refine ⟨h.le.trans h'.le, fun i hi => ?_, fun a ha => ?_⟩
  · exact (h.keeps i hi).trans (h'.keeps i (hi.trans_le h.le))
  · exact (h'.frame a (ha.imp_right fun hin => hin.mono h.le h.keeps)).trans (h.frame a ha)

/-- A change in one heap that leaves its blocks in use alone. -/
theorem Heaps.evolves (hs : Heaps mem heaps k bs) (hi : i < k) (hkeeps : Keeps (bs i) cs)
    (hframe : Frame mem mem' (heaps i) (bs i)) :
    Evolves mem mem' k k bs (Function.update bs i cs) := by
  refine ⟨le_rfl, fun j hj => ?_, fun a ha => ?_⟩
  · by_cases hne : j = i
    · subst hne
      rw [Function.update_self]
      exact hkeeps
    · rw [Function.update_of_ne hne]
      exact Keeps.refl _
  · rcases ha with hlow | ⟨j, hj, hheld⟩
    · exact hframe a (Or.inl (Or.inl (hlow.trans_le (hs.chained i hi).inRange.heap)))
    · by_cases hne : j = i
      · subst hne
        exact hframe a (Or.inr hheld)
      · obtain ⟨x, hx, -, hlow, hhigh⟩ := hheld
        obtain ⟨hlow, hhigh⟩ := (hs.chained j hj).in_heap hx (by omega) hhigh
        exact hframe a (Or.inl (hs.outside hi hj hne hlow hhigh))

/-! ### The break -/

namespace MemoryManager

/-- Where the memory ends. -/
def brk (m : MemoryManager) : ℕ := m.currentMemory * wasmPageSize

/-- The heap in slot `i` is used up. -/
def Full (m : MemoryManager) (i : ℕ) : Prop :=
  (m.availableHeaps i).offset = (m.availableHeaps i).heapSize

/-- The active heap is the last one, and new memory may be had. -/
structure Growing (m : MemoryManager) (k : ℕ) : Prop where
  actual : m.heapsActualSize = heapsSize
  active : m.activeHeap + 1 = k
  full : ∀ i < m.activeHeap, m.Full i
  last : m.activeHeap = 0 ∨ m.activeHeap = 1 ∧
    (m.availableHeaps m.activeHeap).heap + (m.availableHeaps m.activeHeap).heapSize = m.brk
  free : m.activeFreeHeap < k

/-- There is no active heap any more. -/
structure Closed (m : MemoryManager) (k : ℕ) : Prop where
  actual : m.heapsActualSize = k
  active : m.activeHeap = k
  full : ∀ i < k, m.Full i
  free : m.activeFreeHeap < k

/-- No heap is set up yet. -/
structure Unused (m : MemoryManager) : Prop where
  actual : m.heapsActualSize = 0
  active : m.activeHeap = 0
  free : m.activeFreeHeap = 0

/-- The heaps `k` with the blocks `bs`, between the array of the allocator and the break. -/
structure Sound (m : MemoryManager) (k : ℕ) (bs : ℕ → List Block) : Prop where
  heaps : Heaps m.bytes m.availableHeaps k bs
  below : ∀ i < k, (m.availableHeaps i).heap + (m.availableHeaps i).heapSize ≤ m.brk
  above : ∀ i < k, m.initialHeap ≤ (m.availableHeaps i).heap
  initial : sizeMarker ≤ m.initialHeap
  initialEnd : m.initialHeap + initialHeapSize ≤ m.brk
  pages : m.currentMemory < 2 ^ 16
  sbrkBytes : ∀ b, m.sbrkBytes = some b → b = m.brk

variable {m m' : MemoryManager} {grows : ℕ → Bool}

theorem Sound.getD (hs : m.Sound k bs) :
    m.sbrkBytes.getD (u32 (m.currentMemory * wasmPageSize)) = m.brk := by
  have hpages := hs.pages
  cases h : m.sbrkBytes with
  | none =>
      have hpage : wasmPageSize = 65536 := rfl
      have hlt : m.currentMemory * wasmPageSize < 2 ^ 32 := by
        rw [hpage]
        omega
      rw [Option.getD_none, u32_of_lt hlt, brk]
  | some b => exact hs.sbrkBytes b h

theorem Sound.sbrk_zero (hs : m.Sound k bs) :
    m.sbrk grows 0 = (some m.brk, { m with sbrkBytes := some m.brk }) := by
  have hpages := hs.pages
  have hpage : wasmPageSize = 65536 := rfl
  have hbrk : m.brk = m.currentMemory * 65536 := rfl
  have hdesired : u32 (m.brk + (0 + 7) / 8 * 8 + (wasmPageSize - 1)) / wasmPageSize =
      m.currentMemory := by
    rw [hpage, u32_of_lt (by omega)]
    omega
  have hsum : u32 (m.brk + (0 + 7) / 8 * 8) = m.brk := by
    rw [u32_of_lt (by omega)]
    omega
  rw [sbrk, hs.getD]
  dsimp only
  rw [if_neg (by decide), hdesired, if_neg (lt_irrefl _), hsum]

theorem Sound.sbrk_page (hs : m.Sound k bs) (hhalf : m.brk < 2 ^ 31) :
    m.sbrk grows wasmPageSize =
      if grows (m.currentMemory + 1) then
        (some m.brk, { m with
          currentMemory := m.currentMemory + 1, sbrkBytes := some (m.brk + wasmPageSize) })
      else (none, { m with sbrkBytes := some m.brk }) := by
  have hpage : wasmPageSize = 65536 := rfl
  have hbrk : m.brk = m.currentMemory * 65536 := rfl
  have hbytes : (wasmPageSize + 7) / 8 * 8 = wasmPageSize := by decide
  have hdesired : u32 (m.brk + wasmPageSize + (wasmPageSize - 1)) / wasmPageSize =
      m.currentMemory + 1 := by
    rw [hpage, u32_of_lt (by omega)]
    omega
  have hsum : u32 (m.brk + wasmPageSize) = m.brk + wasmPageSize := u32_of_lt (by omega)
  rw [sbrk, hs.getD, hbytes]
  dsimp only
  rw [if_neg (by decide), hdesired, if_pos (Nat.lt_succ_self _), hsum]

theorem heapAdj_page (n : ℕ) : heapAdj (n * wasmPageSize) = wasmPageSize := by
  have hpage : wasmPageSize = 65536 := rfl
  rw [heapAdj, Nat.mul_mod_left, if_pos (Nat.zero_le _)]
  omega

@[simp] theorem leaveHeap_activeHeap (m : MemoryManager) :
    m.leaveHeap.activeHeap = m.activeHeap + 1 := rfl

theorem leaveHeap_next (m : MemoryManager) :
    m.leaveHeap.availableHeaps (m.activeHeap + 1) = m.availableHeaps (m.activeHeap + 1) :=
  Function.update_of_ne (Nat.succ_ne_self _) _ _

/-- The active heap is used up; no heap has moved. -/
theorem Sound.leaveHeap (hs : m.Sound k bs) (hi : m.activeHeap < k) :
    ∃ mem' cs, m.leaveHeap = { m with
        bytes := mem'
        availableHeaps := Function.update m.availableHeaps m.activeHeap
          { m.availableHeaps m.activeHeap with
            offset := (m.availableHeaps m.activeHeap).heapSize }
        activeHeap := m.activeHeap + 1 } ∧
      (∀ i, (m.leaveHeap.availableHeaps i).heap = (m.availableHeaps i).heap ∧
        (m.leaveHeap.availableHeaps i).heapSize = (m.availableHeaps i).heapSize) ∧
      m.leaveHeap.Full m.activeHeap ∧
      m.leaveHeap.Sound k (Function.update bs m.activeHeap cs) ∧
      Evolves m.bytes mem' k k bs (Function.update bs m.activeHeap cs) := by
  obtain ⟨mem', cs, hclean, hchained, hkeeps, hframe⟩ :=
    cleanupRemaining_spec (hs.heaps.chained _ hi)
  have hleave : m.leaveHeap = { m with
      bytes := mem'
      availableHeaps := Function.update m.availableHeaps m.activeHeap
        { m.availableHeaps m.activeHeap with
          offset := (m.availableHeaps m.activeHeap).heapSize }
      activeHeap := m.activeHeap + 1 } := by
    rw [MemoryManager.leaveHeap, hclean]
  have hranges : ∀ i, (m.leaveHeap.availableHeaps i).heap = (m.availableHeaps i).heap ∧
      (m.leaveHeap.availableHeaps i).heapSize = (m.availableHeaps i).heapSize := by
    intro i
    rw [hleave]
    dsimp only
    by_cases hne : i = m.activeHeap
    · subst hne
      rw [Function.update_self]
      exact ⟨rfl, rfl⟩
    · rw [Function.update_of_ne hne]
      exact ⟨rfl, rfl⟩
  have hheaps : Heaps mem' m.leaveHeap.availableHeaps k (Function.update bs m.activeHeap cs) := by
    rw [hleave]
    exact hs.heaps.update hi hchained rfl rfl fun a ha => hframe a (Or.inl ha)
  have hbytes : m.leaveHeap.bytes = mem' := by rw [hleave]
  have hbrk : m.leaveHeap.brk = m.brk := by rw [hleave]; rfl
  have hinit : m.leaveHeap.initialHeap = m.initialHeap := by rw [hleave]
  have hfull : m.leaveHeap.Full m.activeHeap := by
    rw [Full, hleave]
    dsimp only
    rw [Function.update_self]
  refine ⟨mem', cs, hleave, hranges, hfull, ⟨?_, fun i hi => ?_, fun i hi => ?_, ?_, ?_, ?_, ?_⟩,
    hs.heaps.evolves hi hkeeps hframe⟩
  · rw [hbytes]
    exact hheaps
  · rw [(hranges i).1, (hranges i).2, hbrk]
    exact hs.below i hi
  · rw [(hranges i).1, hinit]
    exact hs.above i hi
  · rw [hinit]
    exact hs.initial
  · rw [hinit, hbrk]
    exact hs.initialEnd
  · rw [hleave]
    exact hs.pages
  · rw [hbrk, hleave]
    exact hs.sbrkBytes

theorem Sound.withBreak (hs : m.Sound k bs) :
    ({ m with sbrkBytes := some m.brk } : MemoryManager).Sound k bs :=
  ⟨hs.heaps, hs.below, hs.above, hs.initial, hs.initialEnd, hs.pages,
    fun _ hb => (Option.some.inj hb).symm⟩

/-- A page more. -/
def grow (m : MemoryManager) : MemoryManager :=
  { m with currentMemory := m.currentMemory + 1, sbrkBytes := some (m.brk + wasmPageSize) }

theorem brk_grow (m : MemoryManager) : m.grow.brk = m.brk + wasmPageSize :=
  Nat.succ_mul m.currentMemory wasmPageSize

theorem Sound.grow (hs : m.Sound k bs) (hhalf : m.brk < 2 ^ 31) : m.grow.Sound k bs := by
  have hbrk : m.brk = m.currentMemory * 65536 := rfl
  have hgrow := brk_grow m
  refine ⟨hs.heaps, fun i hi => ?_, hs.above, hs.initial, ?_, ?_, fun b hb => ?_⟩
  · rw [hgrow]
    exact (hs.below i hi).trans (Nat.le_add_right _ _)
  · rw [hgrow]
    exact hs.initialEnd.trans (Nat.le_add_right _ _)
  · show m.currentMemory + 1 < 2 ^ 16
    omega
  · rw [hgrow]
    exact (Option.some.inj hb).symm

/-- The active heap takes the new page. -/
def extend (m : MemoryManager) : MemoryManager :=
  { m.grow with
    availableHeaps := Function.update m.availableHeaps m.activeHeap
      { m.availableHeaps m.activeHeap with
        heapSize := (m.availableHeaps m.activeHeap).heapSize + wasmPageSize } }

theorem extend_active (m : MemoryManager) : m.extend.availableHeaps m.activeHeap =
    { m.availableHeaps m.activeHeap with
      heapSize := (m.availableHeaps m.activeHeap).heapSize + wasmPageSize } :=
  Function.update_self _ _ _

theorem extend_other (m : MemoryManager) (hi : i ≠ m.activeHeap) :
    m.extend.availableHeaps i = m.availableHeaps i := Function.update_of_ne hi _ _

/-- The memory ends where the active heap does. -/
theorem Sound.extend (hs : m.Sound k bs) (hg : m.Growing k) (hhalf : m.brk < 2 ^ 31)
    (hend : (m.availableHeaps m.activeHeap).heap + (m.availableHeaps m.activeHeap).heapSize =
      m.brk) : m.extend.Sound k bs ∧ m.extend.Growing k := by
  have hpage : wasmPageSize = 65536 := rfl
  have hmarker : sizeMarker = 4 := rfl
  have hbrk : m.brk = m.currentMemory * 65536 := rfl
  have hgrow : m.extend.brk = m.brk + wasmPageSize := brk_grow m
  have hself := extend_active m
  obtain rfl := hg.active
  have hheap := (hs.heaps.chained m.activeHeap (Nat.lt_succ_self _)).inRange.heap
  have hsound := hs.grow hhalf
  refine ⟨⟨?_, fun i hi => ?_, fun i hi => ?_, hsound.initial, hsound.initialEnd, hsound.pages,
    hsound.sbrkBytes⟩, hg.actual, rfl, fun i hi => ?_, ?_, hg.free⟩
  · exact hs.heaps.expand (by omega) (by omega) (by decide)
  · by_cases hne : i = m.activeHeap
    · subst hne
      rw [hself, hgrow]
      dsimp only
      omega
    · rw [extend_other m hne]
      exact hsound.below i hi
  · by_cases hne : i = m.activeHeap
    · subst hne
      rw [hself]
      exact hs.above _ hi
    · rw [extend_other m hne]
      exact hs.above i hi
  · rw [Full, extend_other m (Nat.ne_of_lt hi)]
    exact hg.full i hi
  · refine hg.last.imp_right fun hlast => ⟨hlast.1, ?_⟩
    show (m.extend.availableHeaps m.activeHeap).heap +
      (m.extend.availableHeaps m.activeHeap).heapSize = m.extend.brk
    rw [hself, hgrow]
    dsimp only
    omega

theorem extend_not_full (hs : m.Sound k bs) (hi : m.activeHeap < k) :
    ¬ m.extend.Full m.activeHeap := by
  have hoffset := (hs.heaps.chained m.activeHeap hi).inRange.offset
  have hpage : wasmPageSize = 65536 := rfl
  rw [Full, extend_active]
  dsimp only
  omega

/-- A new heap behind the active one, which is used up. -/
theorem Sound.openHeap (hs : m.Sound k bs) (hg : m.Growing k) (hhalf : m.brk < 2 ^ 31)
    (hend : (m.availableHeaps m.activeHeap).heap + (m.availableHeaps m.activeHeap).heapSize ≠
      m.brk) {m' : MemoryManager} (hm' : m' = { m.grow.leaveHeap with
        availableHeaps := Function.update m.grow.leaveHeap.availableHeaps (m.activeHeap + 1)
          ⟨wasmPageSize, m.brk, 0⟩ }) :
    ∃ bs', m'.Sound (k + 1) bs' ∧ m'.Growing (k + 1) ∧ Evolves m.bytes m'.bytes k (k + 1) bs bs' ∧
      ¬ m'.Full m'.activeHeap ∧ (m'.availableHeaps m'.activeHeap).offset = 0 := by
  have hpage : wasmPageSize = 65536 := rfl
  have hmarker : sizeMarker = 4 := rfl
  have hbrk : m.brk = m.currentMemory * 65536 := rfl
  obtain rfl := hg.active
  have hzero : m.activeHeap = 0 := hg.last.resolve_right fun hlast => hend hlast.2
  have hinitial := hs.initial
  have hinitialEnd := hs.initialEnd
  have hfree := hg.free
  obtain ⟨mem', cs, hleave, hranges, hfull, hsound, hevolves⟩ :=
    (hs.grow hhalf).leaveHeap (Nat.lt_succ_self m.activeHeap)
  have hold : ∀ i < m.activeHeap + 1,
      m'.availableHeaps i = m.grow.leaveHeap.availableHeaps i := by
    intro i hi
    rw [hm']
    exact Function.update_of_ne (Nat.ne_of_lt hi) _ _
  have hnew : m'.availableHeaps (m.activeHeap + 1) = ⟨wasmPageSize, m.brk, 0⟩ := by
    rw [hm']
    exact Function.update_self _ _ _
  have hends : ∀ i < m.activeHeap + 1,
      (m.grow.leaveHeap.availableHeaps i).heap + (m.grow.leaveHeap.availableHeaps i).heapSize ≤
        m.brk := by
    intro i hi
    rw [(hranges i).1, (hranges i).2]
    exact hs.below i hi
  have hrange : ({ heapSize := wasmPageSize, heap := m.brk, offset := 0 } : Memory).InRange :=
    ⟨by dsimp only; omega, by dsimp only; omega, by dsimp only; omega,
      show wasmPageSize % 8 = 0 by decide, Nat.zero_le _, rfl⟩
  have hall := hsound.heaps.init hrange rfl (hpage ▸ Nat.succ_pos 65535) hends
  have hgrow : m'.brk = m.brk + wasmPageSize := by
    rw [hm', hleave]
    exact brk_grow m
  have hactive : m'.activeHeap = m.activeHeap + 1 := by rw [hm', hleave]; rfl
  have hbytes : m'.bytes = mem' := by rw [hm', hleave]
  have hsame : m'.heapsActualSize = m.heapsActualSize ∧ m'.activeFreeHeap = m.activeFreeHeap ∧
      m'.initialHeap = m.initialHeap ∧ m'.currentMemory = m.currentMemory + 1 ∧
      m'.sbrkBytes = some (m.brk + wasmPageSize) := by
    rw [hm', hleave]
    exact ⟨rfl, rfl, rfl, rfl, rfl⟩
  obtain ⟨hactualSize, hfreeHeap, hinit, hpages, hsbrk⟩ := hsame
  refine ⟨Function.update (Function.update bs m.activeHeap cs) (m.activeHeap + 1) [],
    ⟨?_, fun i hi => ?_, fun i hi => ?_, ?_, ?_, ?_, fun b hb => ?_⟩,
    ⟨?_, ?_, fun i hi => ?_, ?_, ?_⟩, ?_, ?_, ?_⟩
  · rw [hm']
    exact hall
  · rw [hgrow]
    rcases Nat.lt_succ_iff_lt_or_eq.mp hi with hi | rfl
    · rw [hold i hi]
      exact (hends i hi).trans (Nat.le_add_right _ _)
    · rw [hnew]
  · rw [hinit]
    rcases Nat.lt_succ_iff_lt_or_eq.mp hi with hi | rfl
    · rw [hold i hi, (hranges i).1]
      exact hs.above i hi
    · rw [hnew]
      exact (Nat.le_add_right _ _).trans hinitialEnd
  · rw [hinit]
    exact hinitial
  · rw [hinit, hgrow]
    omega
  · omega
  · rw [hsbrk] at hb
    rw [hgrow]
    exact (Option.some.inj hb).symm
  · exact hactualSize.trans hg.actual
  · rw [hactive]
  · obtain rfl : i = m.activeHeap := by omega
    rw [Full, hold _ (Nat.lt_succ_self _)]
    exact hfull
  · right
    rw [hactive, hnew, hgrow, hzero]
    exact ⟨rfl, rfl⟩
  · omega
  · rw [hbytes]
    refine hevolves.trans ⟨Nat.le_succ _, fun i hi => ?_, fun _ _ => rfl⟩
    rw [Function.update_of_ne (show i ≠ m.activeHeap + 1 by omega)]
    exact Keeps.refl _
  · rw [Full, hactive, hnew, hpage]
    exact Nat.zero_ne_add_one 65535
  · rw [hactive, hnew]

/-- The active heap after a refusal. -/
theorem Sound.close (hs : m.Sound k bs) (hg : m.Growing k) {m' : MemoryManager}
    (hm' : m' = { m.leaveHeap with heapsActualSize := m.leaveHeap.activeHeap }) :
    ∃ bs', m'.Sound k bs' ∧ m'.Closed k ∧ Evolves m.bytes m'.bytes k k bs bs' := by
  obtain rfl := hg.active
  obtain ⟨mem', cs, hleave, -, hfull, hsound, hevolves⟩ :=
    hs.leaveHeap (Nat.lt_succ_self m.activeHeap)
  have hkept : m'.Sound (m.activeHeap + 1) (Function.update bs m.activeHeap cs) := by
    subst hm'
    exact ⟨hsound.heaps, hsound.below, hsound.above, hsound.initial, hsound.initialEnd,
      hsound.pages, hsound.sbrkBytes⟩
  have hbytes : m'.bytes = mem' := by rw [hm', hleave]
  refine ⟨Function.update bs m.activeHeap cs, hkept, ⟨?_, ?_, fun i hi => ?_, ?_⟩, ?_⟩
  · rw [hm', hleave]
  · rw [hm', hleave]
  · by_cases hne : i = m.activeHeap
    · subst hne
      rw [hm']
      exact hfull
    · rw [Full, hm', hleave]
      dsimp only
      rw [Function.update_of_ne hne]
      exact hg.full i (by omega)
  · rw [hm', hleave]
    exact hg.free
  · rw [hbytes]
    exact hevolves

/-! What asking for memory does, by how far the memory goes and whether the machine has more. -/

/-- `start` is where the memory ends. -/
theorem nextActiveHeap_of_sbrk {start : ℕ} {m₁ : MemoryManager}
    (h : m.sbrk grows 0 = (some start, m₁)) :
    m.nextActiveHeap grows =
      if 2 ^ 31 ≤ start then (none, m₁)
      else
        match m₁.sbrk grows (heapAdj start) with
        | (none, m) => (none, { m.leaveHeap with heapsActualSize := m.activeHeap + 1 })
        | (some newMemoryStart, m) =>
          match (m.availableHeaps m.activeHeap).expandMemory newMemoryStart (heapAdj start) with
          | some h =>
            (some m.activeHeap,
              { m with availableHeaps := Function.update m.availableHeaps m.activeHeap h })
          | none =>
            (some (m.activeHeap + 1), { m.leaveHeap with
              availableHeaps := Function.update m.leaveHeap.availableHeaps (m.activeHeap + 1)
                ((m.leaveHeap.availableHeaps (m.activeHeap + 1)).init newMemoryStart
                  (heapAdj start)) }) := by
  rw [nextActiveHeap, h]
  rfl

theorem nextActiveHeap_of_ge (grows : ℕ → Bool) (hs : m.Sound k bs) (hhalf : 2 ^ 31 ≤ m.brk) :
    m.nextActiveHeap grows = (none, { m with sbrkBytes := some m.brk }) := by
  rw [nextActiveHeap_of_sbrk hs.sbrk_zero, if_pos hhalf]

theorem Sound.sbrk_page_withBreak (hs : m.Sound k bs) (hhalf : m.brk < 2 ^ 31) :
    ({ m with sbrkBytes := some m.brk } : MemoryManager).sbrk grows (heapAdj m.brk) =
      if grows (m.currentMemory + 1) then (some m.brk, m.grow)
      else (none, { m with sbrkBytes := some m.brk }) := by
  rw [brk, heapAdj_page]
  exact hs.withBreak.sbrk_page hhalf

theorem nextActiveHeap_of_refused (hs : m.Sound k bs) (hhalf : m.brk < 2 ^ 31)
    (hgrows : ¬ grows (m.currentMemory + 1)) :
    m.nextActiveHeap grows =
      (none, { ({ m with sbrkBytes := some m.brk } : MemoryManager).leaveHeap with
        heapsActualSize := m.activeHeap + 1 }) := by
  rw [nextActiveHeap_of_sbrk hs.sbrk_zero, if_neg (Nat.not_le_of_lt hhalf),
    hs.sbrk_page_withBreak hhalf, if_neg hgrows]

theorem nextActiveHeap_of_grows (hs : m.Sound k bs) (hhalf : m.brk < 2 ^ 31)
    (hgrows : grows (m.currentMemory + 1)) :
    m.nextActiveHeap grows =
      match (m.availableHeaps m.activeHeap).expandMemory m.brk wasmPageSize with
      | some h =>
        (some m.activeHeap,
          { m.grow with availableHeaps := Function.update m.availableHeaps m.activeHeap h })
      | none =>
        (some (m.activeHeap + 1), { m.grow.leaveHeap with
          availableHeaps := Function.update m.grow.leaveHeap.availableHeaps (m.activeHeap + 1)
            ((m.grow.leaveHeap.availableHeaps (m.activeHeap + 1)).init m.brk wasmPageSize) }) := by
  have hadj : heapAdj m.brk = wasmPageSize := heapAdj_page m.currentMemory
  rw [nextActiveHeap_of_sbrk hs.sbrk_zero, if_neg (Nat.not_le_of_lt hhalf),
    hs.sbrk_page_withBreak hhalf, if_pos hgrows, hadj]
  rfl

theorem expandMemory_of_eq (hs : m.Sound k bs) (hi : m.activeHeap < k)
    (hend : (m.availableHeaps m.activeHeap).heap + (m.availableHeaps m.activeHeap).heapSize =
      m.brk) :
    (m.availableHeaps m.activeHeap).expandMemory m.brk wasmPageSize =
      some { m.availableHeaps m.activeHeap with
        heapSize := (m.availableHeaps m.activeHeap).heapSize + wasmPageSize } := by
  have hinRange := (hs.heaps.chained m.activeHeap hi).inRange
  have hsize := hinRange.size
  have hpage : wasmPageSize = 65536 := rfl
  rw [Memory.expandMemory, hinRange.fin_eq, if_neg (not_not.mpr hend), u32_of_lt (by omega)]

theorem expandMemory_of_ne (hs : m.Sound k bs) (hi : m.activeHeap < k)
    (hend : (m.availableHeaps m.activeHeap).heap + (m.availableHeaps m.activeHeap).heapSize ≠
      m.brk) :
    (m.availableHeaps m.activeHeap).expandMemory m.brk wasmPageSize = none := by
  have hinRange := (hs.heaps.chained m.activeHeap hi).inRange
  rw [Memory.expandMemory, hinRange.fin_eq]
  exact if_pos hend

/-- The heap behind the active one is the new page. -/
theorem init_next (hs : m.Sound k bs) (hg : m.Growing k) :
    (m.grow.leaveHeap.availableHeaps (m.activeHeap + 1)).init m.brk wasmPageSize =
      ⟨wasmPageSize, m.brk, 0⟩ := by
  have hnext : m.grow.leaveHeap.availableHeaps (m.activeHeap + 1) = .uninit :=
    (leaveHeap_next m.grow).trans (hs.heaps.unused _ hg.active.ge)
  rw [hnext]
  rfl

/-- What asking for memory comes to: the break is too high, the machine refuses, or there is
a heap with more room. -/
theorem nextActiveHeap_cases (grows : ℕ → Bool) (hs : m.Sound k bs) (hg : m.Growing k) :
    (m.nextActiveHeap grows = (none, { m with sbrkBytes := some m.brk }) ∧ 2 ^ 31 ≤ m.brk) ∨
      (∃ m' bs', m.nextActiveHeap grows = (none, m') ∧ m'.Sound k bs' ∧ m'.Closed k ∧
        Evolves m.bytes m'.bytes k k bs bs') ∨
      ∃ m' k' bs', m.nextActiveHeap grows = (some m'.activeHeap, m') ∧ m'.Sound k' bs' ∧
        m'.Growing k' ∧ Evolves m.bytes m'.bytes k k' bs bs' ∧
        m'.currentMemory = m.currentMemory + 1 ∧ m.brk < 2 ^ 31 ∧ ¬ m'.Full m'.activeHeap ∧
        (m'.availableHeaps m'.activeHeap).offset ≤ (m.availableHeaps m.activeHeap).offset := by
  have hactive : m.activeHeap < k := hg.active ▸ Nat.lt_succ_self _
  by_cases hhalf : 2 ^ 31 ≤ m.brk
  · exact Or.inl ⟨nextActiveHeap_of_ge grows hs hhalf, hhalf⟩
  have hlow : m.brk < 2 ^ 31 := Nat.lt_of_not_le hhalf
  right
  by_cases hgrows : grows (m.currentMemory + 1)
  · right
    have hnext := nextActiveHeap_of_grows hs hlow hgrows
    by_cases hend : (m.availableHeaps m.activeHeap).heap +
        (m.availableHeaps m.activeHeap).heapSize = m.brk
    · rw [expandMemory_of_eq hs hactive hend] at hnext
      obtain ⟨hsound, hgrowing⟩ := hs.extend hg hlow hend
      exact ⟨m.extend, k, bs, hnext, hsound, hgrowing, Evolves.refl _ _ _, rfl, hlow,
        extend_not_full hs hactive, (congrArg Memory.offset (extend_active m)).le⟩
    · rw [expandMemory_of_ne hs hactive hend] at hnext
      dsimp only at hnext
      rw [init_next hs hg] at hnext
      obtain ⟨bs', hsound, hgrowing, hevolves, hfull, hoffset⟩ := hs.openHeap hg hlow hend rfl
      exact ⟨_, k + 1, bs', hnext, hsound, hgrowing, hevolves, rfl, hlow, hfull,
        hoffset.le.trans (Nat.zero_le _)⟩
  · left
    obtain ⟨bs', hsound, hclosed, hevolves⟩ := hs.withBreak.close
      ⟨hg.actual, hg.active, hg.full, hg.last, hg.free⟩ rfl
    exact ⟨_, bs', nextActiveHeap_of_refused hs hlow hgrows, hsound, hclosed, hevolves⟩

/-! ### One heap changes -/

theorem Sound.update (hs : m.Sound k bs) (hi : i < k) (hchained : Chained mem' h' cs)
    (hheap : h'.heap = (m.availableHeaps i).heap)
    (hsize : h'.heapSize = (m.availableHeaps i).heapSize)
    (hout : ∀ a, (m.availableHeaps i).Outside a → mem' a = m.bytes a) :
    ({ m with
      bytes := mem'
      availableHeaps := Function.update m.availableHeaps i h' } : MemoryManager).Sound k
      (Function.update bs i cs) := by
  have hends : ∀ j, ((Function.update m.availableHeaps i h') j).heap = (m.availableHeaps j).heap ∧
      ((Function.update m.availableHeaps i h') j).heapSize = (m.availableHeaps j).heapSize := by
    intro j
    by_cases hne : j = i
    · subst hne
      rw [Function.update_self]
      exact ⟨hheap, hsize⟩
    · rw [Function.update_of_ne hne]
      exact ⟨rfl, rfl⟩
  refine ⟨hs.heaps.update hi hchained hheap hsize hout, fun j hj => ?_, fun j hj => ?_, hs.initial,
    hs.initialEnd, hs.pages, hs.sbrkBytes⟩
  · have hbelow := hs.below j hj
    dsimp only
    rw [(hends j).1, (hends j).2]
    exact hbelow
  · have habove := hs.above j hj
    dsimp only
    rw [(hends j).1]
    exact habove

theorem Full.update {n : ℕ} (hfull : m.Full n) (hr : h'.InRange)
    (hsize : h'.heapSize = (m.availableHeaps i).heapSize)
    (hle : (m.availableHeaps i).offset ≤ h'.offset) :
    ({ m with
      bytes := mem'
      availableHeaps := Function.update m.availableHeaps i h' } : MemoryManager).Full n := by
  rw [Full] at hfull ⊢
  dsimp only
  by_cases hne : n = i
  · subst hne
    have hoffset := hr.offset
    rw [Function.update_self]
    omega
  · rw [Function.update_of_ne hne]
    exact hfull

theorem Growing.update (hg : m.Growing k) (hr : h'.InRange)
    (hheap : h'.heap = (m.availableHeaps i).heap)
    (hsize : h'.heapSize = (m.availableHeaps i).heapSize)
    (hle : (m.availableHeaps i).offset ≤ h'.offset) :
    ({ m with
      bytes := mem'
      availableHeaps := Function.update m.availableHeaps i h' } : MemoryManager).Growing k := by
  refine ⟨hg.actual, hg.active, fun j hj => (hg.full j hj).update hr hsize hle, ?_, hg.free⟩
  refine hg.last.imp_right fun hlast => ⟨hlast.1, ?_⟩
  have hend := hlast.2
  dsimp only
  by_cases hne : m.activeHeap = i
  · subst hne
    rw [Function.update_self, hheap, hsize]
    exact hend
  · rw [Function.update_of_ne hne]
    exact hend

theorem Closed.update (hc : m.Closed k) (hr : h'.InRange)
    (hsize : h'.heapSize = (m.availableHeaps i).heapSize)
    (hle : (m.availableHeaps i).offset ≤ h'.offset) :
    ({ m with
      bytes := mem'
      availableHeaps := Function.update m.availableHeaps i h' } : MemoryManager).Closed k :=
  ⟨hc.actual, hc.active, fun j hj => (hc.full j hj).update hr hsize hle, hc.free⟩

end MemoryManager

end Xidata.Allocator
