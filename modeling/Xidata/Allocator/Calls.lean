import Xidata.Allocator.Heaps

/-!
What `malloc`, `free` and `realloc` do to the heaps.  A call finds a block that was not in
use, or none; it keeps the blocks in use and what they hold.  A search for freed blocks may
leave the heaps: once the break has passed half of what can be addressed no heap is closed
any more, and with the active one used up the slots that hold no heap are searched as well,
where the word at address `0` is taken for a header.
-/

namespace Xidata.Allocator

open ByteMemory BlockChain

variable {mem mem' mem'' : Bytes} {i j k k' k'' size p : ℕ} {h h' : Memory}
  {heaps heaps' : ℕ → Memory} {bs bs' bs'' : ℕ → List Block} {cs : List Block}

/-! ### Sizes -/

/-- What rounding adds, unless the size is one of the last three. -/
theorem adjustToMemBlock_spec (hsize : size + sizeMarker ≤ 2 ^ 32) :
    MemoryManager.adjustToMemBlock size % 8 = 4 ∧ size ≤ MemoryManager.adjustToMemBlock size ∧
      MemoryManager.adjustToMemBlock size < size + 8 := by
  have hmarker : sizeMarker = 4 := rfl
  have hblock : memBlock = 8 := rfl
  have hremainder : u32 (size + sizeMarker) &&& remMemBlockMask = (size + 4) % 8 := by
    have hmask := Nat.and_two_pow_sub_one_eq_mod (u32 (size + 4)) 3
    rw [hmarker]
    refine hmask.trans ?_
    rw [u32]
    omega
  rw [MemoryManager.adjustToMemBlock, hremainder, hblock]
  by_cases hpos : 0 < (size + 4) % 8
  · rw [if_pos hpos, u32_of_lt (by omega)]
    omega
  · rw [if_neg hpos]
    omega

theorem adjustToMemBlock_whole (hsize : size % 8 = 4) (hle : size + sizeMarker ≤ 2 ^ 32) :
    MemoryManager.adjustToMemBlock size = size := by
  obtain ⟨hwhole, hge, hlt⟩ := adjustToMemBlock_spec hle
  omega

/-! ### Blocks found -/

/-- `p` is the block of `size` bytes or more in use among `bs'`, and none of those among `bs`. -/
def Fresh (k : ℕ) (bs : ℕ → List Block) (k' : ℕ) (bs' : ℕ → List Block) (size p : ℕ) : Prop :=
  ∃ i < k', ∃ y ∈ bs' i, y.used = true ∧ p = y.addr + sizeMarker ∧ size ≤ y.size ∧
    ∀ j < k, ∀ z ∈ bs j, z.used = true → z.addr ≠ y.addr

theorem Fresh.after (hfresh : Fresh k' bs' k'' bs'' size p) (hle : k ≤ k')
    (hkeeps : ∀ i < k, Keeps (bs i) (bs' i)) : Fresh k bs k'' bs'' size p := by
  obtain ⟨i, hi, y, hy, hused, hp, hsize, hnew⟩ := hfresh
  exact ⟨i, hi, y, hy, hused, hp, hsize, fun j hj z hz hzused =>
    hnew j (hj.trans_le hle) z (hkeeps j hj z hz hzused) hzused⟩

/-- A block found in one heap is none of another one. -/
theorem Heaps.fresh (hs' : Heaps mem' heaps' k bs')
    (hkeeps : ∀ j < k, Keeps (bs j) (bs' j)) (hi : i < k) {y : Block} (hy : y ∈ bs' i)
    (hused : y.used = true) (hsize : size ≤ y.size)
    (hnew : ∀ z ∈ bs i, z.used = true → z.addr ≠ y.addr) :
    Fresh k bs k bs' size (y.addr + sizeMarker) := by
  have hmarker : sizeMarker = 4 := rfl
  refine ⟨i, hi, y, hy, hused, rfl, hsize, fun j hj z hz hzused => ?_⟩
  by_cases hne : j = i
  · subst hne
    exact hnew z hz hzused
  · intro heq
    have hz' := hkeeps j hj z hz hzused
    obtain ⟨hlow, hhigh⟩ := (hs'.chained j hj).in_heap hz' le_rfl (by omega)
    obtain ⟨hlow', hhigh'⟩ := (hs'.chained i hi).in_heap hy le_rfl (by omega)
    rcases hs'.outside hi hj hne hlow hhigh with hout | hout <;> omega

/-! ### Slots without a heap -/

/-- The word at address `0` cannot be taken for the header of a free block of `size` bytes. -/
def Harmless (mem : Bytes) (size : ℕ) : Prop :=
  (header mem 0).2 = true ∨ (header mem 0).1 < size

/-- The parts of a word. -/
theorem and_or_and_allocMemoryMask {n : ℕ} (h : n < 2 ^ 32) :
    (n &&& sizeMask) ||| (n &&& allocMemoryMask) = n := by
  have hall : sizeMask ||| allocMemoryMask = 2 ^ 32 - 1 := by decide
  rw [← Nat.and_or_distrib_left, hall, Nat.and_two_pow_sub_one_eq_mod, Nat.mod_eq_of_lt h]

/-- The search of a slot without a heap writes the word that it finds, and nothing else. -/
theorem mallocFromFreed_uninit (h : Harmless mem size) :
    Memory.uninit.mallocFromFreed mem size = .ok (none, mem) := by
  have hsearch : Memory.searchFreed 0 size 1 mem (some sizeMarker) = (none, mem) := by
    rw [Memory.searchFreed]
    dsimp only
    by_cases halloc : (BufferPtr.read mem sizeMarker 0).isAlloc mem = true
    · rw [if_pos halloc]
      rfl
    · have hlt : word mem 0 &&& sizeMask < size := h.resolve_left halloc
      have hset : (BufferPtr.read mem sizeMarker 0).setSize mem (word mem 0 &&& sizeMask) =
          (mem, BufferPtr.read mem sizeMarker 0) := by
        have hsame : setWord mem 0
            ((word mem 0 &&& sizeMask) ||| (word mem 0 &&& allocMemoryMask)) = mem := by
          rw [and_or_and_allocMemoryMask (word_lt mem 0)]
          exact store_load mem 0 sizeMarker
        exact Prod.ext hsame rfl
      have hmerge : (BufferPtr.read mem sizeMarker 0).mergeContiguous mem size false =
          (false, mem, BufferPtr.read mem sizeMarker 0) := by
        have hpossible : BufferPtr.possibleSize mem (BufferPtr.read mem sizeMarker 0).ptr
            (BufferPtr.read mem sizeMarker 0).heapEnd size
            (BufferPtr.read mem sizeMarker 0).heapEnd (BufferPtr.read mem sizeMarker 0).size =
            word mem 0 &&& sizeMask := rfl
        rw [BufferPtr.mergeContiguous, if_neg (fun hall => Bool.false_ne_true hall.1), hpossible]
        dsimp only
        rw [if_neg (fun hall => Bool.false_ne_true hall.1), if_pos hlt, hset,
          BufferPtr.splitRemainder, if_neg hlt.asymm, beq_eq_false_iff_ne.mpr hlt.ne]
      rw [if_neg halloc, hmerge]
      rfl
  exact (if_pos rfl).trans (congrArg Except.ok hsearch)

namespace MemoryManager

variable {m m' : MemoryManager} {grows : ℕ → Bool}

/-! ### New memory -/

theorem mallocActive_succ {turns current : ℕ} :
    mallocActive grows size (turns + 1) m current =
      match (m.availableHeaps current).malloc m.bytes size with
      | some (buffer, bytes, h) =>
        (some buffer, { m with bytes, availableHeaps := Function.update m.availableHeaps current h })
      | none =>
        match m.nextActiveHeap grows with
        | (some next, m) => mallocActive grows size turns m next
        | (none, m) => (none, m) := rfl

/-- What the search for new memory comes to: a block, or the end of all memory.  If the active
heap is used up then and the break too high, nothing has happened. -/
theorem mallocActive_spec (grows : ℕ → Bool) (turns : ℕ) (hs : m.Sound k bs) (hg : m.Growing k)
    (hwhole : size % 8 = 4)
    (hlt : (m.availableHeaps m.activeHeap).offset + size + sizeMarker < 2 ^ 32)
    (hpos : 0 < turns) (hturns : 2 ^ 15 < m.currentMemory + turns) :
    ∃ r m' k' bs', mallocActive grows size turns m m.activeHeap = (r, m') ∧ m'.Sound k' bs' ∧
      Evolves m.bytes m'.bytes k k' bs bs' ∧
      ((∃ p, r = some p ∧ m'.Growing k' ∧ Fresh k bs k' bs' size p) ∨
        (r = none ∧ (m'.Closed k' ∨ m'.Growing k' ∧
          (m'.Full m'.activeHeap → m.Full m.activeHeap ∧ 2 ^ 31 ≤ m.brk ∧
            m'.bytes = m.bytes)))) := by
  induction turns generalizing m k bs with
  | zero => omega
  | succ turns ih =>
      have hi : m.activeHeap < k := hg.active ▸ Nat.lt_succ_self _
      obtain ⟨hnone, -⟩ | ⟨mem', hsome, hroom, hputs⟩ :=
        malloc_cases (hs.heaps.chained _ hi) hwhole hlt
      · obtain ⟨hnext, hhalf⟩ | ⟨m', bs', hnext, hsound, hclosed, hevolves⟩ |
            ⟨m', k', bs', hnext, hsound, hgrowing, hevolves, hpages, hhalf, hfull, hoffset⟩ :=
          nextActiveHeap_cases grows hs hg
        · rw [mallocActive_succ, hnone, hnext]
          refine ⟨none, _, k, bs, rfl, hs.withBreak, Evolves.refl _ _ _, Or.inr ⟨rfl, Or.inr ?_⟩⟩
          exact ⟨⟨hg.actual, hg.active, hg.full, hg.last, hg.free⟩,
            fun hfull => ⟨hfull, hhalf, rfl⟩⟩
        · rw [mallocActive_succ, hnone, hnext]
          exact ⟨none, m', k, bs', rfl, hsound, hevolves, Or.inr ⟨rfl, Or.inl hclosed⟩⟩
        · -- the loop goes on with a heap that is not used up
          rw [mallocActive_succ, hnone, hnext]
          have hbrk : m.brk = m.currentMemory * 65536 := rfl
          obtain ⟨r, m'', k'', bs'', hloop, hsound'', hevolves'', hresult⟩ :=
            ih hsound hgrowing (by omega) (by omega) (by omega)
          refine ⟨r, m'', k'', bs'', hloop, hsound'', hevolves.trans hevolves'', ?_⟩
          refine hresult.imp ?_ ?_
          · rintro ⟨p, rfl, hgrowing'', hfresh⟩
            exact ⟨p, rfl, hgrowing'', hfresh.after hevolves.le hevolves.keeps⟩
          · rintro ⟨hr, hrest⟩
            exact ⟨hr, hrest.imp_right fun hrest =>
              ⟨hrest.1, fun hfull'' => absurd (hrest.2 hfull'').1 hfull⟩⟩
      · rw [mallocActive_succ, hsome]
        have hchained := hs.heaps.chained _ hi
        obtain ⟨hpush, hframe⟩ := hchained.push hputs hwhole hroom
        have hkeeps := keeps_append (bs m.activeHeap)
          [⟨(m.availableHeaps m.activeHeap).heap + (m.availableHeaps m.activeHeap).offset, size,
            true⟩]
        have hsound := hs.update hi hpush rfl rfl fun a ha => hframe a (Or.inl ha)
        have hevolves := hs.heaps.evolves hi hkeeps hframe
        refine ⟨_, _, k, _, rfl, hsound, hevolves,
          Or.inl ⟨_, rfl, hg.update hpush.inRange rfl rfl ?_, ?_⟩⟩
        · exact (Nat.le_add_right _ size).trans (Nat.le_add_right _ sizeMarker)
        · refine hsound.heaps.fresh hevolves.keeps hi
            (y := ⟨(m.availableHeaps m.activeHeap).heap + (m.availableHeaps m.activeHeap).offset,
              size, true⟩) ?_ rfl le_rfl fun z hz _ heq => ?_
          · rw [Function.update_self]
            exact List.mem_append_right _ List.mem_cons_self
          · have hend := (hchained.bounds hz).2.1
            have hmarker : sizeMarker = 4 := rfl
            rw [heq] at hend
            dsimp only at hend
            omega

/-! ### Blocks that were freed -/

theorem Sound.withBytes (hs : m.Sound k bs) (hi : i < k)
    (hfinds : Chained mem' (m.availableHeaps i) cs)
    (hout : ∀ a, (m.availableHeaps i).Outside a → mem' a = m.bytes a) :
    ({ m with bytes := mem' } : MemoryManager).Sound k (Function.update bs i cs) := by
  have h := hs.update hi hfinds rfl rfl hout
  rwa [Function.update_eq_self] at h

/-- The search of one slot. -/
theorem slot_spec {r : Option ℕ} (hs : m.Sound k bs) (hwhole : size % 8 = 4)
    (hslot : i < k ∨ Harmless m.bytes size)
    (h : (m.availableHeaps i).mallocFromFreed m.bytes size = .ok (r, mem')) :
    ∃ bs', ({ m with bytes := mem' } : MemoryManager).Sound k bs' ∧
      Evolves m.bytes mem' k k bs bs' ∧ (i < k → m.Full i) ∧
      ∀ p, r = some p → i < k ∧ Fresh k bs k bs' size p := by
  rcases Nat.lt_or_ge i k with hi | hi
  · by_cases hfull : m.Full i
    · obtain ⟨mem'', cs, r', hsearch, hfinds⟩ := mallocFromFreed_spec (hs.heaps.chained i hi) hfull
        (hs.heaps.pos i hi) hwhole
      obtain ⟨rfl, rfl⟩ := Prod.mk.inj (Except.ok.inj (hsearch.symm.trans h))
      have hsound := hs.withBytes hi hfinds.chained fun a ha => hfinds.frame a (Or.inl ha)
      have hevolves := hs.heaps.evolves hi hfinds.keeps hfinds.frame
      refine ⟨_, hsound, hevolves, fun _ => hfull, fun p hp => ⟨hi, ?_⟩⟩
      obtain ⟨y, hy, hused, rfl, hsize, hnew⟩ := hfinds.found p hp
      refine hsound.heaps.fresh hevolves.keeps hi ?_ hused hsize hnew
      rw [Function.update_self]
      exact hy
    · rw [Memory.mallocFromFreed, if_neg (show ¬ _ = _ from hfull)] at h
      cases h
  · have hharmless : Harmless m.bytes size := hslot.resolve_left (Nat.not_lt.mpr hi)
    rw [hs.heaps.unused i hi, mallocFromFreed_uninit hharmless] at h
    obtain ⟨rfl, rfl⟩ := Prod.mk.inj (Except.ok.inj h)
    exact ⟨bs, hs, Evolves.refl _ _ _, fun hlt => absurd hlt (Nat.not_lt.mpr hi),
      fun p hp => (by cases hp)⟩

theorem Harmless.evolves (h : Harmless mem size) (hevolves : Evolves mem mem' k k' bs bs') :
    Harmless mem' size := by
  have hword : word mem' 0 = word mem 0 :=
    load_congr fun a _ hlt => hevolves.frame a (Or.inl ((Nat.zero_add sizeMarker) ▸ hlt))
  rw [Harmless, header, hword]
  exact h

/-- The search goes through the slots, from the one where the last search ended to the one
before it.  It does not come to slots without a heap, or these are harmless. -/
theorem mallocFreed_spec {turns start : ℕ} (hs : m.Sound k bs) (hk : k ≤ m.heapsActualSize)
    (hstart : start < k) (hslot : m.activeFreeHeap < m.heapsActualSize) (hwhole : size % 8 = 4)
    (hharmless : m.heapsActualSize = k ∨ Harmless m.bytes size ∨
      ∃ i, m.activeFreeHeap ≤ i ∧ i < k ∧ ¬ m.Full i)
    (hturns : (if start ≤ m.activeFreeHeap then m.heapsActualSize - m.activeFreeHeap + start
      else start - m.activeFreeHeap) ≤ turns) {r : Option ℕ}
    (h : mallocFreed size start turns m = .ok (r, m')) :
    ∃ bs' mem' slot, m' = { m with bytes := mem', activeFreeHeap := slot } ∧ m'.Sound k bs' ∧
      Evolves m.bytes m'.bytes k k bs bs' ∧ slot < k ∧
      ∀ p, r = some p → Fresh k bs k bs' size p := by
  induction turns generalizing m bs with
  | zero => split at hturns <;> omega
  | succ turns ih =>
      have hh : m.activeFreeHeap < k ∨ Harmless m.bytes size := by
        by_cases hlt : m.activeFreeHeap < k
        · exact Or.inl hlt
        · right
          rcases hharmless with heq | hharmless | ⟨i, hle, hi, -⟩
          · omega
          · exact hharmless
          · omega
      rw [mallocFreed] at h
      cases hsearch : (m.availableHeaps m.activeFreeHeap).mallocFromFreed m.bytes size with
      | error e =>
          rw [hsearch] at h
          cases h
      | ok found =>
          obtain ⟨buffer, mem'⟩ := found
          obtain ⟨bs', hsound, hevolves, hfull, hfresh⟩ := slot_spec hs hwhole hh hsearch
          rw [hsearch] at h
          cases buffer with
          | some p =>
              obtain ⟨rfl, rfl⟩ := Prod.mk.inj (Except.ok.inj h)
              obtain ⟨hi, hfresh⟩ := hfresh p rfl
              exact ⟨bs', mem', _, rfl, hsound, hevolves, hi, fun q hq =>
                Option.some.inj hq ▸ hfresh⟩
          | none =>
              dsimp only at h
              generalize hnext : (if m.activeFreeHeap + 1 = m.heapsActualSize then 0
                else m.activeFreeHeap + 1) = next at h
              have hmoved : ({ m with bytes := mem', activeFreeHeap := next } :
                  MemoryManager).Sound k bs' :=
                ⟨hsound.heaps, hsound.below, hsound.above, hsound.initial, hsound.initialEnd,
                  hsound.pages, hsound.sbrkBytes⟩
              by_cases hend : next = start
              · rw [if_pos hend] at h
                obtain ⟨rfl, rfl⟩ := Prod.mk.inj (Except.ok.inj h)
                exact ⟨bs', mem', next, rfl, hmoved, hevolves, hend ▸ hstart,
                  fun p hp => (by cases hp)⟩
              · rw [if_neg hend] at h
                have hslot' : next < m.heapsActualSize := by
                  split at hnext <;> omega
                have hturns' : (if start ≤ next then m.heapsActualSize - next + start
                    else start - next) ≤ turns := by
                  split at hnext <;> split at hturns <;> split <;> omega
                have hharmless' : m.heapsActualSize = k ∨ Harmless mem' size ∨
                    ∃ i, next ≤ i ∧ i < k ∧ ¬ m.Full i := by
                  refine hharmless.imp_right (Or.imp (fun hh => Harmless.evolves hh hevolves) ?_)
                  rintro ⟨i, hle, hi, hnot⟩
                  have hne : i ≠ m.activeFreeHeap := by
                    rintro rfl
                    exact hnot (hfull hi)
                  refine ⟨i, ?_, hi, hnot⟩
                  split at hnext <;> omega
                obtain ⟨bs'', mem'', slot, hm', hsound', hevolves', hslot'', hfresh'⟩ :=
                  ih hmoved hk hslot' hharmless' hturns' h
                exact ⟨bs'', mem'', slot, hm', hsound', hevolves.trans hevolves', hslot'',
                  fun p hp => (hfresh' p hp).after le_rfl hevolves.keeps⟩

/-! ### The calls -/

/-- No heap yet, heaps of which the last one grows, or heaps that are all used up. -/
inductive Phase (m : MemoryManager) (k : ℕ) : Prop
  | unused (hk : k = 0) (h : m.Unused)
  | growing (h : m.Growing k)
  | closed (h : m.Closed k)

/-- The sum that is tested against the size of the active heap, if there is one, does not wrap. -/
def HasRoom (m : MemoryManager) (size : ℕ) : Prop :=
  m.heapsActualSize = 0 ∨ m.activeHeap < m.heapsActualSize →
    (m.availableHeaps m.activeHeap).offset + size + sizeMarker < 2 ^ 32

/-- A request for `size` bytes passes through the sums of `malloc` without wrapping. -/
structure Admits (m : MemoryManager) (size : ℕ) : Prop where
  rounds : size + sizeMarker ≤ 2 ^ 32
  room : m.HasRoom (adjustToMemBlock size)

/-- A search for a block of `size` bytes stays among the heaps: it does not find the active
heap used up with the break too high, or the slots without a heap are harmless. -/
def Searches (m : MemoryManager) (size : ℕ) : Prop :=
  m.activeHeap < m.heapsActualSize → m.Full m.activeHeap → 2 ^ 31 ≤ m.brk → Harmless m.bytes size

theorem Sound.wholeOffset (hs : m.Sound k bs) (i : ℕ) : (m.availableHeaps i).offset % 8 = 0 := by
  rcases Nat.lt_or_ge i k with hi | hi
  · exact (hs.heaps.chained i hi).inRange.wholeOffset
  · rw [hs.heaps.unused i hi]
    rfl

/-- The first call sets the initial heap up. -/
theorem Sound.initActive (hs : m.Sound 0 bs) (hu : m.Unused) :
    ∃ bs', (initActive { m with heapsActualSize := heapsSize }).Sound 1 bs' ∧
      (initActive { m with heapsActualSize := heapsSize }).Growing 1 ∧
      Evolves m.bytes m.bytes 0 1 bs bs' ∧
      initActive { m with heapsActualSize := heapsSize } = { m with
        heapsActualSize := heapsSize
        availableHeaps :=
          Function.update m.availableHeaps 0 ⟨initialHeapSize, m.initialHeap, 0⟩ } := by
  have hmarker : sizeMarker = 4 := rfl
  have hsize : initialHeapSize = 8192 := rfl
  have hbrk : m.brk = m.currentMemory * 65536 := rfl
  have hpages := hs.pages
  have hinitial := hs.initial
  have hend := hs.initialEnd
  have hslot : m.availableHeaps 0 = .uninit := hs.heaps.unused 0 le_rfl
  have hinit : MemoryManager.initActive { m with heapsActualSize := heapsSize } = { m with
      heapsActualSize := heapsSize
      availableHeaps :=
        Function.update m.availableHeaps 0 ⟨initialHeapSize, m.initialHeap, 0⟩ } := by
    have hnone : ¬ (m.availableHeaps 0).isInit = true := by
      rw [hslot]
      decide
    rw [MemoryManager.initActive]
    dsimp only
    rw [if_pos ⟨hu.active, hnone⟩, hslot]
    rfl
  have hrange : ({ heapSize := initialHeapSize, heap := m.initialHeap, offset := 0 } :
      Memory).InRange :=
    ⟨hinitial, by dsimp only; omega, by dsimp only; omega, by dsimp only; omega, Nat.zero_le _, rfl⟩
  have hheaps := hs.heaps.init hrange rfl (by dsimp only; omega) fun i hi =>
    absurd hi (Nat.not_lt_zero i)
  rw [hinit]
  refine ⟨_, ⟨hheaps, fun i hi => ?_, fun i hi => ?_, hinitial, hend, hpages, hs.sbrkBytes⟩,
    ⟨rfl, ?_, fun i hi => ?_, Or.inl hu.active, ?_⟩, ⟨Nat.zero_le 1, fun i hi => ?_,
      fun _ _ => rfl⟩, rfl⟩
  · obtain rfl : i = 0 := by omega
    dsimp only
    rw [Function.update_self]
    exact hend
  · obtain rfl : i = 0 := by omega
    dsimp only
    rw [Function.update_self]
  · exact congrArg (· + 1) hu.active
  · exact absurd (hu.active ▸ hi) (Nat.not_lt_zero i)
  · show m.activeFreeHeap < 1
    rw [hu.free]
    exact one_pos
  · exact absurd hi (Nat.not_lt_zero i)

/-- The search for new memory. -/
theorem mallocNew_spec (grows : ℕ → Bool) (hs : m.Sound k bs) (hphase : m.Phase k)
    (hwhole : size % 8 = 4) (hroom : m.HasRoom size) (hsearches : m.Searches size) :
    ∃ r m' k' bs', m.mallocNew grows size = (r, m') ∧ m'.Sound k' bs' ∧
      Evolves m.bytes m'.bytes k k' bs bs' ∧
      ((∃ p, r = some p ∧ m'.Growing k' ∧ Fresh k bs k' bs' size p) ∨
        (r = none ∧ (m'.Closed k' ∨ m'.Growing k' ∧
          (m'.Full m'.activeHeap → Harmless m'.bytes size)))) := by
  have hmarker : sizeMarker = 4 := rfl
  have hheaps : heapsSize = 16 := rfl
  have hpages : 2 ^ 15 < m.currentMemory + pageTurns :=
    (show 2 ^ 15 < pageTurns by decide).trans_le (Nat.le_add_left _ _)
  cases hphase with
  | unused hk hu =>
      subst hk
      obtain ⟨bs', hsound, hg, hevolves, hinit⟩ := hs.initActive hu
      have hnew : m.mallocNew grows size = mallocActive grows size pageTurns
          (initActive { m with heapsActualSize := heapsSize }) m.activeHeap := by
        rw [mallocNew, if_pos hu.actual]
        exact if_pos (show m.activeHeap < heapsSize by rw [hu.active]; decide)
      have hactive : (initActive { m with heapsActualSize := heapsSize }).activeHeap =
          m.activeHeap := by rw [hinit]
      have hslot : (initActive { m with heapsActualSize := heapsSize }).availableHeaps
          m.activeHeap = ⟨initialHeapSize, m.initialHeap, 0⟩ := by
        rw [hinit, hu.active]
        exact Function.update_self 0 _ m.availableHeaps
      have hlt := hroom (Or.inl hu.actual)
      have hbytes : (initActive { m with heapsActualSize := heapsSize }).bytes = m.bytes := by
        rw [hinit]
      have hmemory : (initActive { m with heapsActualSize := heapsSize }).currentMemory =
          m.currentMemory := by rw [hinit]
      obtain ⟨r, m', k', bs'', hloop, hsound', hevolves', hresult⟩ :=
        mallocActive_spec grows pageTurns hsound hg hwhole
          (by rw [hactive, hslot]; dsimp only; omega) (Nat.succ_pos _)
          (by rw [hmemory]; exact hpages)
      rw [hactive] at hloop hresult
      rw [hbytes] at hevolves'
      refine ⟨r, m', k', bs'', hnew.trans hloop, hsound', hevolves.trans hevolves',
        hresult.imp ?_ ?_⟩
      · rintro ⟨p, hp, hgrowing, hfresh⟩
        exact ⟨p, hp, hgrowing, hfresh.after hevolves.le hevolves.keeps⟩
      · rintro ⟨hr, hrest⟩
        refine ⟨hr, hrest.imp_right fun hrest => ⟨hrest.1, fun hfull => ?_⟩⟩
        have hold := (hrest.2 hfull).1
        rw [Full, hslot] at hold
        exact absurd hold (show ¬ 0 = initialHeapSize by decide)
  | growing hg =>
      have hactive : m.activeHeap < m.heapsActualSize := by
        have hlast := hg.last
        rw [hg.actual]
        omega
      have hi : m.activeHeap < k := hg.active ▸ Nat.lt_succ_self _
      have hinit : m.initActive = m := by
        refine if_neg fun hnone => hnone.2 ?_
        have hheap := (hs.heaps.chained m.activeHeap hi).inRange.heap
        rw [hnone.1] at hheap
        exact bne_iff_ne.mpr (by omega)
      have hnew : m.mallocNew grows size = mallocActive grows size pageTurns m m.activeHeap := by
        rw [mallocNew, if_neg (show ¬ m.heapsActualSize = 0 by omega)]
        exact (if_pos hactive).trans (by rw [hinit])
      obtain ⟨r, m', k', bs', hloop, hsound', hevolves, hresult⟩ :=
        mallocActive_spec grows pageTurns hs hg hwhole (hroom (Or.inr hactive))
          (Nat.succ_pos _) hpages
      refine ⟨r, m', k', bs', hnew.trans hloop, hsound', hevolves, hresult.imp_right ?_⟩
      rintro ⟨hr, hrest⟩
      refine ⟨hr, hrest.imp_right fun hrest => ⟨hrest.1, fun hfull => ?_⟩⟩
      obtain ⟨hold, hhalf, hbytes⟩ := hrest.2 hfull
      rw [hbytes]
      exact hsearches hactive hold hhalf
  | closed hc =>
      have hfree := hc.free
      have hactual := hc.actual
      have hnew : m.mallocNew grows size = (none, m) := by
        rw [mallocNew, if_neg (show ¬ m.heapsActualSize = 0 by omega)]
        exact if_neg (show ¬ m.activeHeap < m.heapsActualSize by rw [hc.active]; omega)
      exact ⟨none, m, k, bs, hnew, hs, Evolves.refl _ _ _, Or.inr ⟨rfl, Or.inl hc⟩⟩

/-- `malloc` finds a block of the size asked for that was not in use, or none. -/
theorem malloc_spec (hs : m.Sound k bs) (hphase : m.Phase k) (hsize : size ≠ 0)
    (hwhole : adjustToMemBlock size % 8 = 4)
    (hroom : m.HasRoom (adjustToMemBlock size))
    (hsearches : m.Searches (adjustToMemBlock size)) {r : Option ℕ}
    (h : m.malloc grows size = .ok (r, m')) :
    ∃ k' bs', m'.Sound k' bs' ∧ m'.Phase k' ∧ Evolves m.bytes m'.bytes k k' bs bs' ∧
      ∀ p, r = some p → Fresh k bs k' bs' (adjustToMemBlock size) p := by
  have hmarker : sizeMarker = 4 := rfl
  obtain ⟨r', m₁, k₁, bs₁, hnew, hsound, hevolves, hresult⟩ := mallocNew_spec grows hs
    hphase hwhole hroom hsearches
  rw [malloc, if_neg hsize, hnew] at h
  rcases hresult with ⟨p, rfl, hgrowing, hfresh⟩ | ⟨rfl, hrest⟩
  · obtain ⟨rfl, rfl⟩ := Prod.mk.inj (Except.ok.inj h)
    exact ⟨k₁, bs₁, hsound, .growing hgrowing, hevolves, fun q hq => Option.some.inj hq ▸ hfresh⟩
  · dsimp only at h
    have hranges : k₁ ≤ m₁.heapsActualSize ∧ m₁.activeFreeHeap < k₁ ∧
        (m₁.heapsActualSize = k₁ ∨ Harmless m₁.bytes (adjustToMemBlock size) ∨
          ∃ i, m₁.activeFreeHeap ≤ i ∧ i < k₁ ∧ ¬ m₁.Full i) := by
      rcases hrest with hclosed | ⟨hgrowing, hfull⟩
      · exact ⟨hclosed.actual.ge, hclosed.free, Or.inl hclosed.actual⟩
      · have hfree := hgrowing.free
        have hlast := hgrowing.last
        have hk := hgrowing.active
        have hheaps : heapsSize = 16 := rfl
        refine ⟨by rw [hgrowing.actual]; omega, hfree, Or.inr ?_⟩
        by_cases hactive' : m₁.Full m₁.activeHeap
        · exact Or.inl (hfull hactive')
        · exact Or.inr ⟨m₁.activeHeap, by omega, by omega, hactive'⟩
    obtain ⟨hk, hfree, hharmless⟩ := hranges
    obtain ⟨bs₂, mem', slot, rfl, hsound', hevolves', hslot, hfresh⟩ := mallocFreed_spec hsound hk
      hfree (hfree.trans_le hk) hwhole hharmless (by rw [if_pos le_rfl]; omega) h
    refine ⟨k₁, bs₂, hsound', ?_, hevolves.trans hevolves', fun p hp =>
      (hfresh p hp).after hevolves.le hevolves.keeps⟩
    rcases hrest with hclosed | ⟨hgrowing, -⟩
    · exact .closed ⟨hclosed.actual, hclosed.active, hclosed.full, hslot⟩
    · exact .growing ⟨hgrowing.actual, hgrowing.active, hgrowing.full, hgrowing.last, hslot⟩

theorem Phase.withBytes (h : m.Phase k) : ({ m with bytes := mem' } : MemoryManager).Phase k := by
  cases h with
  | unused hk hu => exact .unused hk ⟨hu.actual, hu.active, hu.free⟩
  | growing hg => exact .growing ⟨hg.actual, hg.active, hg.full, hg.last, hg.free⟩
  | closed hc => exact .closed ⟨hc.actual, hc.active, hc.full, hc.free⟩

theorem Phase.le (h : m.Phase k) : k ≤ m.heapsActualSize := by
  cases h with
  | unused hk _ => exact hk ▸ Nat.zero_le _
  | growing hg =>
      have hlast := hg.last
      have hactive := hg.active
      have hheaps : heapsSize = 16 := rfl
      rw [hg.actual]
      omega
  | closed hc => exact hc.actual.ge

/-- The first slot that a pointer lies in, all slots before it being set up. -/
theorem find?_takeWhile_range {q r : ℕ → Bool} {n : ℕ} (hi : i < n) (hq : ∀ j ≤ i, q j = true)
    (hr : r i = true) (hnot : ∀ j < i, r j = false) :
    ((List.range n).takeWhile q).find? r = some i := by
  obtain ⟨l, rfl⟩ : ∃ l, n = (i + 1) + l := ⟨n - (i + 1), by omega⟩
  have hall : ∀ j ∈ List.range (i + 1), q j = true := fun j hj =>
    hq j (Nat.lt_succ_iff.mp (List.mem_range.mp hj))
  have hnone : (List.range i).find? r = none := List.find?_eq_none.mpr fun j hj => by
    rw [hnot j (List.mem_range.mp hj)]
    exact Bool.false_ne_true
  rw [List.range_add, List.takeWhile_append_of_pos hall, List.find?_append, List.range_succ,
    List.find?_append, hnone, List.find?_singleton, hr]
  rfl

/-- The pointer to a block leads to its heap. -/
theorem Sound.heapOf (hs : m.Sound k bs) (hphase : m.Phase k) (hi : i < k) {x : Block}
    (hx : x ∈ bs i) : m.heapOf (x.addr + sizeMarker) = some i := by
  have hmarker : sizeMarker = 4 := rfl
  have hsome := (hs.heaps.chained i hi).whole x hx
  obtain ⟨hlow, hhigh⟩ := (hs.heaps.chained i hi).in_heap hx (a := x.addr + sizeMarker)
    (Nat.le_add_right _ _) (by omega)
  obtain ⟨hlow', -⟩ := (hs.heaps.chained i hi).in_heap hx le_rfl (by omega)
  have hstart : ∀ j < k, u32 ((m.availableHeaps j).heap + sizeMarker) =
      (m.availableHeaps j).heap + sizeMarker := fun j hj => by
    have hfin := (hs.heaps.chained j hj).inRange.fin
    exact u32_of_lt (by omega)
  refine find?_takeWhile_range (hi.trans_le hphase.le) (fun j hj => ?_) ?_ fun j hj => ?_
  · have hheap := (hs.heaps.chained j (hj.trans_lt hi)).inRange.heap
    exact bne_iff_ne.mpr (by omega)
  · refine decide_eq_true ?_
    rw [(hs.heaps.chained i hi).inRange.fin_eq, hstart i hi]
    omega
  · refine decide_eq_false ?_
    have hapart := hs.heaps.apart j i hj hi
    rw [(hs.heaps.chained j (hj.trans hi)).inRange.fin_eq]
    omega

/-- Blocks other than the one at `p` stay in use. -/
def KeepsOthers (k : ℕ) (bs bs' : ℕ → List Block) (p : ℕ) : Prop :=
  ∀ i < k, ∀ z ∈ bs i, z.used = true → z.addr + sizeMarker ≠ p → z ∈ bs' i

/-- One block of one heap and free blocks behind it have changed. -/
theorem keepsOthers_update {x x' : Block} {xs ys rest : List Block} (hsplit : bs i = xs ++ x :: ys)
    (hkeeps : Keeps ys rest) :
    KeepsOthers k bs (Function.update bs i (xs ++ x' :: rest)) (x.addr + sizeMarker) := by
  intro j _ z hz hused hne
  by_cases hji : j = i
  · subst hji
    rw [Function.update_self]
    rw [hsplit] at hz
    rcases List.mem_append.mp hz with hz | hz
    · exact List.mem_append_left _ hz
    · rcases List.mem_cons.mp hz with rfl | hz
      · exact absurd rfl hne
      · exact List.mem_append_right _ (List.mem_cons_of_mem _ (hkeeps z hz hused))
  · rw [Function.update_of_ne hji]
    exact hz

theorem free_spec (hs : m.Sound k bs) (hphase : m.Phase k) (hi : i < k) {x : Block}
    (hx : x ∈ bs i) :
    ∃ bs', (m.free (x.addr + sizeMarker)).Sound k bs' ∧ (m.free (x.addr + sizeMarker)).Phase k ∧
      KeepsOthers k bs bs' (x.addr + sizeMarker) ∧
      ∀ a, a < sizeMarker ∨ InUse k bs a → (m.free (x.addr + sizeMarker)).bytes a = m.bytes a := by
  obtain ⟨xs, ys, hsplit⟩ := List.append_of_mem hx
  obtain ⟨mem', hfree, hchained, hframe⟩ := Allocator.free_spec (hsplit ▸ hs.heaps.chained i hi)
  have hcall : m.free (x.addr + sizeMarker) = { m with bytes := mem' } := by
    rw [free, if_neg (by have hmarker : sizeMarker = 4 := rfl; omega), hs.heapOf hphase hi hx]
    dsimp only
    rw [hfree]
  rw [hcall]
  refine ⟨_, hs.withBytes hi hchained fun a ha => hframe a (Or.inl ha), hphase.withBytes, ?_,
    fun a ha => ?_⟩
  · exact keepsOthers_update hsplit (Keeps.refl ys)
  · exact (hs.heaps.evolves hi (Keeps.refl (bs i)) (hsplit ▸ hframe)).frame a ha

/-- The block at `ptr`, with its `orig` bytes, can grow to `size` bytes among the blocks of its
heap.  If it is the last one, `size` is no more than the address where the heap ends; if only
free blocks follow, then these are large enough, or the heap itself is too small. -/
structure GrowsWithin (mem : Bytes) (h : Memory) (ptr orig size : ℕ) : Prop where
  last : ptr + orig = h.heap + h.offset → size ≤ h.heap + h.heapSize
  inner : ptr + orig ≠ h.heap + h.offset →
    FreeRun sizeMarker (header mem) (ptr + orig) (h.heap + h.offset) →
      h.heap + h.offset < ptr + size → h.heap + h.heapSize < ptr + size

/-- The size in the header of the block at `ptr`. -/
def blockSize (m : MemoryManager) (ptr : ℕ) : ℕ := (header m.bytes (ptr - sizeMarker)).1

/-- Resizing the block at `ptr` stays among the blocks of its heap. -/
def Resizes (m : MemoryManager) (ptr size : ℕ) : Prop :=
  ∀ i, m.heapOf ptr = some i → m.blockSize ptr < size →
    GrowsWithin m.bytes (m.availableHeaps i) ptr (m.blockSize ptr) size

theorem Sound.blockSize (hs : m.Sound k bs) (hi : i < k) {x : Block} (hx : x ∈ bs i) :
    m.blockSize (x.addr + sizeMarker) = x.size := by
  rw [MemoryManager.blockSize, Nat.add_sub_cancel, (hs.heaps.chained i hi).heads x hx]

/-- A block in use stays where it is and nothing happens, or it has the new size there. -/
theorem resize_spec (hs : m.Sound k bs) (hphase : m.Phase k) (hi : i < k) {x : Block}
    (hx : x ∈ bs i) (hused : x.used = true) (hwhole : size % 8 = 4)
    (hresizes : m.Resizes (x.addr + sizeMarker) size) :
    m.resize (x.addr + sizeMarker) size = (none, x.size, m) ∨
      ∃ m' bs', m.resize (x.addr + sizeMarker) size =
          (some (x.addr + sizeMarker), x.size, m') ∧ m'.Sound k bs' ∧ m'.Phase k ∧
        KeepsOthers k bs bs' (x.addr + sizeMarker) ∧
        (∃ y ∈ bs' i, y.used = true ∧ y.addr = x.addr ∧ size ≤ y.size) ∧
        ∀ a, a < sizeMarker ∨ InUse k bs a →
          a < x.addr + sizeMarker + size ∨ x.addr + sizeMarker + x.size ≤ a →
            m'.bytes a = m.bytes a := by
  have hmarker : sizeMarker = 4 := rfl
  have hheap := hs.heapOf hphase hi hx
  have hsize := hs.blockSize hi hx
  have hgrows := hresizes i hheap
  rw [hsize] at hgrows
  obtain ⟨xs, ys, hsplit⟩ := List.append_of_mem hx
  have hchained := hs.heaps.chained i hi
  rw [hsplit] at hchained
  obtain ⟨c, -, -, hys⟩ := tiles_append.mp hchained.tiles
  have hcall : m.resize (x.addr + sizeMarker) size =
      (((m.availableHeaps i).reallocInPlace m.bytes (x.addr + sizeMarker) size).1,
        ((m.availableHeaps i).reallocInPlace m.bytes (x.addr + sizeMarker) size).2.1,
        { m with
          bytes := ((m.availableHeaps i).reallocInPlace m.bytes (x.addr + sizeMarker) size).2.2.1
          availableHeaps := Function.update m.availableHeaps i
            ((m.availableHeaps i).reallocInPlace m.bytes (x.addr + sizeMarker) size).2.2.2 }) := by
    rw [resize, if_neg (by omega), hheap]
  rw [hcall]
  obtain hnone | ⟨mem', h', x', rest, hsome, hresized⟩ :=
    reallocInPlace_spec hchained hused hwhole
      (fun hlt hnil => (hgrows hlt).last (by subst hnil; exact hys))
      (fun hlt hne hfree => (hgrows hlt).inner (by
        obtain ⟨y, ys, rfl⟩ := List.exists_cons_of_ne_nil hne
        have hle := hys.2.le
        have haddr := hys.1
        omega)
        ((freeRun_iff (by decide) hys (hchained.heads.mono fun y hy => by simp [hy])).mpr hfree))
  · rw [hnone]
    left
    rw [Function.update_eq_self]
  · rw [hsome]
    right
    have hr := hresized.chained.inRange
    have hbounds := hchained.bounds (x := x) (by simp)
    have hoffset := hchained.inRange.offset
    have hout : ∀ a, (m.availableHeaps i).Outside a → mem' a = m.bytes a := fun a ha =>
      hresized.frame a (Or.inl ha) (by rcases ha with ha | ha <;> omega)
    refine ⟨_, _, rfl, hs.update hi hresized.chained hresized.heap hresized.heapSize hout, ?_, ?_,
      ⟨x', ?_, hresized.used, hresized.addr, hresized.size_le⟩, fun a ha hfar => ?_⟩
    · cases hphase with
      | unused hk _ => omega
      | growing hg =>
          exact .growing (hg.update hr hresized.heap hresized.heapSize hresized.offset)
      | closed hc => exact .closed (hc.update hr hresized.heapSize hresized.offset)
    · exact keepsOthers_update hsplit hresized.keeps
    · rw [Function.update_self]
      exact List.mem_append_right _ List.mem_cons_self
    · rcases ha with hlow | ⟨j, hj, hheld⟩
      · exact hout a (Or.inl (hlow.trans_le hchained.inRange.heap))
      · by_cases hne : j = i
        · subst hne
          exact hresized.frame a (Or.inr (hsplit ▸ hheld)) hfar
        · obtain ⟨y, hy, -, hlow, hhigh⟩ := hheld
          obtain ⟨hlow, hhigh⟩ := (hs.heaps.chained j hj).in_heap hy (by omega) hhigh
          exact hout a (hs.heaps.outside hi hj hne hlow hhigh)

end MemoryManager

end Xidata.Allocator
