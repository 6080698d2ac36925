import Xidata.Allocator.Calls

/-!
What a call comes to, whichever it is: the blocks in use stay but for the one that was given
up, no call changes what they hold, and a block that was found was not in use or is the one
passed.
-/

namespace Xidata.Allocator

open ByteMemory BlockChain

/-! ### Blocks in use -/

variable {mem mem' : Bytes} {i j k k' size p ptr : ℕ} {bs bs' bs'' : ℕ → List Block}
  {r : Option ℕ} {grows : ℕ → Bool} {m m' : MemoryManager} {x y : Block}

/-- Blocks at different addresses lie apart, in one heap or in two. -/
theorem MemoryManager.Sound.apart (hs : m.Sound k bs) (hi : i < k) (hj : j < k) (hx : x ∈ bs i)
    (hy : y ∈ bs j) (hne : x.addr ≠ y.addr) :
    x.addr + sizeMarker + x.size ≤ y.addr ∨ y.addr + sizeMarker + y.size ≤ x.addr := by
  have hmarker : sizeMarker = 4 := rfl
  by_cases hij : i = j
  · subst hij
    exact ((hs.heaps.chained i hi).tiles.apart hx hy).resolve_left fun heq => hne (heq ▸ rfl)
  · obtain ⟨hlow, hhigh⟩ := (hs.heaps.chained i hi).in_heap hx (a := x.addr) le_rfl (by omega)
    have hxend := ((hs.heaps.chained i hi).bounds hx).2.1
    have hyend := ((hs.heaps.chained j hj).bounds hy).2.1
    have hylow := ((hs.heaps.chained j hj).bounds hy).1
    have hxoffset := (hs.heaps.chained i hi).inRange.offset
    have hyoffset := (hs.heaps.chained j hj).inRange.offset
    rcases hs.heaps.outside hj hi hij hlow hhigh with hout | hout
    · rcases Nat.lt_or_gt_of_ne hij with hlt | hlt
      · have hapart := hs.heaps.apart i j hlt hj
        omega
      · have hapart := hs.heaps.apart j i hlt hi
        omega
    · omega

/-- What a call has done to the heaps: blocks in use stay, but for the one that was given up,
and so does what they hold; a block that was found was not in use, or is the one passed. -/
structure Moves (m m' : MemoryManager) (k k' : ℕ) (bs bs' : ℕ → List Block) (ptr size : ℕ)
    (r : Option ℕ) : Prop where
  sound : m'.Sound k' bs'
  phase : m'.Phase k'
  le : k ≤ k'
  keeps : ∀ i < k, ∀ z ∈ bs i, z.used = true →
    z.addr + sizeMarker ≠ ptr ∨ ¬ (size = 0 ∨ r.isSome = true) → z ∈ bs' i
  frame : ∀ i < k, ∀ z ∈ bs i, z.used = true →
    z.addr + sizeMarker ≠ ptr ∨ ¬ (size = 0 ∨ r.isSome = true) →
      ∀ a, z.addr + sizeMarker ≤ a → a < z.addr + sizeMarker + z.size → m'.bytes a = m.bytes a
  found : ∀ p, r = some p → ∃ i < k', ∃ y ∈ bs' i, y.used = true ∧ p = y.addr + sizeMarker ∧
    size ≤ y.size ∧ ∀ j < k, ∀ z ∈ bs j, z.used = true → z.addr = y.addr → p = ptr
  moved : ∀ p, r = some p → ∀ i < k, ∀ x ∈ bs i, x.used = true → ptr = x.addr + sizeMarker →
    ∀ a, a < min x.size size → m'.bytes (p + a) = m.bytes (ptr + a)

/-- A search gives up no block. -/
theorem Moves.of_evolves (hs : m'.Sound k' bs') (hphase : m'.Phase k')
    (hevolves : Evolves m.bytes m'.bytes k k' bs bs')
    (hfresh : ∀ p, r = some p → Fresh k bs k' bs' size p) (hr : r = none ∨ ptr = 0) :
    Moves m m' k k' bs bs' ptr size r := by
  refine ⟨hs, hphase, hevolves.le, fun i hi z hz hused _ => hevolves.keeps i hi z hz hused,
    fun i hi z hz hused _ a hlow hhigh =>
      hevolves.frame a (Or.inr ⟨i, hi, z, hz, hused, hlow, hhigh⟩), fun p hp => ?_, ?_⟩
  · obtain ⟨i, hi, y, hy, hused, hptr, hsize, hnew⟩ := hfresh p hp
    exact ⟨i, hi, y, hy, hused, hptr, hsize, fun j hj z hz hzused heq =>
      absurd heq (hnew j hj z hz hzused)⟩
  · rintro p rfl i - x - - hptr
    have hmarker : sizeMarker = 4 := rfl
    rcases hr with hr | hr
    · cases hr
    · omega

/-- The memory changes in blocks in use and outside of the heaps. -/
theorem MemoryManager.Sound.rewrite (hs : m.Sound k bs)
    (hmem : ∀ i < k, ∀ a, (m.availableHeaps i).heap ≤ a →
      a < (m.availableHeaps i).heap + (m.availableHeaps i).heapSize → ¬ InUse k bs a →
        mem' a = m.bytes a) :
    ({ m with bytes := mem' } : MemoryManager).Sound k bs := by
  have hchained : ∀ i < k, Chained mem' (m.availableHeaps i) (bs i) := by
    intro i hi
    refine (hs.heaps.chained i hi).congr fun a hlow hhigh hheld => hmem i hi a hlow hhigh ?_
    rintro ⟨j, hj, hheld'⟩
    by_cases hne : j = i
    · subst hne
      exact hheld hheld'
    · obtain ⟨x, hx, -, hlow', hhigh'⟩ := hheld'
      obtain ⟨hlow', hhigh'⟩ := (hs.heaps.chained j hj).in_heap hx (by omega) hhigh'
      rcases hs.heaps.outside hi hj hne hlow' hhigh' with hout | hout <;> omega
  exact ⟨⟨hchained, hs.heaps.pos, hs.heaps.unused, hs.heaps.apart⟩, hs.below, hs.above, hs.initial,
    hs.initialEnd, hs.pages, hs.sbrkBytes⟩

theorem Fresh.mono {size' : ℕ} (h : Fresh k bs k' bs' size' p) (hle : size ≤ size') :
    Fresh k bs k' bs' size p := by
  obtain ⟨i, hi, y, hy, hused, hp, hsize, hnew⟩ := h
  exact ⟨i, hi, y, hy, hused, hp, hle.trans hsize, hnew⟩

/-! ### What each call does -/

section Calls

variable (hs : m.Sound k bs) (hphase : m.Phase k)

include hs hphase

theorem malloc_moves (hadmits : size ≠ 0 → m.Admits size)
    (hsearches : size ≠ 0 → m.Searches (MemoryManager.adjustToMemBlock size))
    (h : m.malloc grows size = .ok (r, m')) : ∃ k' bs', Moves m m' k k' bs bs' 0 size r := by
  by_cases hsize : size = 0
  · rw [MemoryManager.malloc, if_pos hsize] at h
    obtain ⟨rfl, rfl⟩ := Prod.mk.inj (Except.ok.inj h)
    exact ⟨k, bs, .of_evolves hs hphase (Evolves.refl _ _ _) (fun p hp => (by cases hp))
      (Or.inr rfl)⟩
  · obtain ⟨hrounds, hroom⟩ := hadmits hsize
    obtain ⟨hwhole, hle, -⟩ := adjustToMemBlock_spec hrounds
    obtain ⟨k', bs', hsound, hphase', hevolves, hfresh⟩ := MemoryManager.malloc_spec hs hphase hsize
      hwhole hroom (hsearches hsize) h
    exact ⟨k', bs', .of_evolves hsound hphase' hevolves (fun p hp => (hfresh p hp).mono hle)
      (Or.inr rfl)⟩

/-- A null pointer, or a block in use, is given up. -/
theorem free_moves (hptr : ptr = 0 ∨ ∃ i < k, ∃ x ∈ bs i, ptr = x.addr + sizeMarker) :
    ∃ bs', Moves m (m.free ptr) k k bs bs' ptr 0 none := by
  have hnone : ∀ {p : ℕ} {P : Prop}, (none : Option ℕ) = some p → P := fun hp => by cases hp
  rcases hptr with rfl | ⟨i, hi, x, hx, rfl⟩
  · have hcall : m.free 0 = m := if_pos rfl
    rw [hcall]
    exact ⟨bs, .of_evolves hs hphase (Evolves.refl _ _ _) (fun p hp => hnone hp) (Or.inl rfl)⟩
  · obtain ⟨bs', hsound, hphase', hothers, hframe⟩ := MemoryManager.free_spec hs hphase hi hx
    refine ⟨bs', hsound, hphase', le_rfl, fun j hj z hz hused hne => ?_,
      fun j hj z hz hused _ a hlow hhigh =>
        hframe a (Or.inr ⟨j, hj, z, hz, hused, hlow, hhigh⟩), fun p hp => hnone hp,
      fun p hp => hnone hp⟩
    exact hothers j hj z hz hused (hne.resolve_right fun hgiven => hgiven (Or.inl rfl))

end Calls

/-- A change of memory in the block that was found, or outside of the heaps. -/
theorem Moves.rewrite (hmoves : Moves m m' k k' bs bs' 0 size r)
    (hmem : ∀ a, (∀ i < k', (m'.availableHeaps i).Outside a) ∨
      (∃ p, r = some p ∧ p ≤ a ∧ a < p + size) ∨ mem a = m'.bytes a) :
    Moves m { m' with bytes := mem } k k' bs bs' 0 size r := by
  have hmarker : sizeMarker = 4 := rfl
  refine ⟨hmoves.sound.rewrite fun i hi a hlow hhigh hnot => ?_, hmoves.phase.withBytes, hmoves.le,
    hmoves.keeps, fun i hi z hz hused hne a hlow hhigh => ?_, hmoves.found, ?_⟩
  · rcases hmem a with hout | ⟨p, hp, hlow', hhigh'⟩ | hsame
    · rcases hout i hi with hout | hout <;> omega
    · obtain ⟨j, hj, y, hy, hused, rfl, hsize, -⟩ := hmoves.found p hp
      exact absurd ⟨j, hj, y, hy, hused, hlow', by omega⟩ hnot
    · exact hsame
  · have hz' := hmoves.keeps i hi z hz hused hne
    refine Eq.trans ?_ (hmoves.frame i hi z hz hused hne a hlow hhigh)
    obtain ⟨hin, hin'⟩ := (hmoves.sound.heaps.chained i (hi.trans_le hmoves.le)).in_heap hz'
      (show z.addr ≤ a by omega) hhigh
    rcases hmem a with hout | ⟨p, hp, hlow', hhigh'⟩ | hsame
    · rcases hout i (hi.trans_le hmoves.le) with hout | hout <;> omega
    · obtain ⟨j, hj, y, hy, hyused, rfl, hsize, hnew⟩ := hmoves.found p hp
      have hne' : z.addr ≠ y.addr := fun heq => by
        have hzero := hnew i hi z hz hused heq
        omega
      have hapart := hmoves.sound.apart (hi.trans_le hmoves.le) hj hz' hy hne'
      omega
    · exact hsame
  · rintro p hp i hi x hx hused hptr
    omega

namespace MemoryManager

/-! The array of the allocator does not move. -/

theorem withMemory_initialHeap (m : MemoryManager) (pages : ℕ) (b : Option ℕ) :
    ({ m with currentMemory := pages, sbrkBytes := b } : MemoryManager).initialHeap =
      m.initialHeap := rfl

theorem sbrk_initialHeap (grows : ℕ → Bool) (m : MemoryManager) (n : ℕ) :
    (m.sbrk grows n).2.initialHeap = m.initialHeap := by
  rw [sbrk]
  dsimp only
  split_ifs
  · rfl
  · exact withMemory_initialHeap m _ _
  · rfl
  · rfl

theorem nextActiveHeap_initialHeap (grows : ℕ → Bool) (m : MemoryManager) :
    (m.nextActiveHeap grows).2.initialHeap = m.initialHeap := by
  rw [nextActiveHeap]
  have hzero := sbrk_initialHeap grows m 0
  rcases hfirst : m.sbrk grows 0 with ⟨_ | size, m₁⟩
  · rw [hfirst] at hzero
    exact hzero
  · rw [hfirst] at hzero
    dsimp only
    split_ifs
    · exact hzero
    · have hpage := sbrk_initialHeap grows m₁ (heapAdj size)
      rcases hsecond : m₁.sbrk grows (heapAdj size) with ⟨_ | start, m₂⟩
      · rw [hsecond] at hpage
        exact hpage.trans hzero
      · rw [hsecond] at hpage
        dsimp only
        cases (m₂.availableHeaps m₂.activeHeap).expandMemory start (heapAdj size) <;>
          exact hpage.trans hzero

theorem mallocActive_initialHeap (turns current : ℕ) (m : MemoryManager) :
    (mallocActive grows size turns m current).2.initialHeap = m.initialHeap := by
  induction turns generalizing m current with
  | zero => rfl
  | succ turns ih =>
      rw [mallocActive_succ]
      cases (m.availableHeaps current).malloc m.bytes size with
      | some found => rfl
      | none =>
          have hnext := nextActiveHeap_initialHeap grows m
          rcases hactive : m.nextActiveHeap grows with ⟨_ | next, m₁⟩
          · rw [hactive] at hnext
            exact hnext
          · rw [hactive] at hnext
            exact (ih next m₁).trans hnext

theorem mallocFreed_initialHeap {turns start : ℕ}
    (h : mallocFreed size start turns m = .ok (r, m')) : m'.initialHeap = m.initialHeap := by
  induction turns generalizing m with
  | zero =>
      obtain ⟨-, rfl⟩ := Prod.mk.inj (Except.ok.inj h)
      rfl
  | succ turns ih =>
      rw [mallocFreed] at h
      rcases hslot : (m.availableHeaps m.activeFreeHeap).mallocFromFreed m.bytes size with
        e | ⟨_ | p, mem'⟩
      · rw [hslot] at h
        cases h
      · rw [hslot] at h
        dsimp only at h
        split_ifs at h <;> first
          | exact (ih h).trans rfl
          | (obtain ⟨-, rfl⟩ := Prod.mk.inj (Except.ok.inj h); rfl)
      · rw [hslot] at h
        obtain ⟨-, rfl⟩ := Prod.mk.inj (Except.ok.inj h)
        rfl

theorem malloc_initialHeap (h : m.malloc grows size = .ok (r, m')) :
    m'.initialHeap = m.initialHeap := by
  have hnew : (m.mallocNew grows (adjustToMemBlock size)).2.initialHeap = m.initialHeap := by
    rw [mallocNew]
    split_ifs <;> first
      | rfl
      | (refine (mallocActive_initialHeap _ _ _).trans ?_
         rw [initActive]
         split_ifs <;> rfl)
  rw [malloc] at h
  split_ifs at h
  · obtain ⟨-, rfl⟩ := Prod.mk.inj (Except.ok.inj h)
    rfl
  · rcases hfound : m.mallocNew grows (adjustToMemBlock size) with ⟨_ | p, m₁⟩
    · rw [hfound] at h hnew
      exact (mallocFreed_initialHeap h).trans hnew
    · rw [hfound] at h hnew
      obtain ⟨-, rfl⟩ := Prod.mk.inj (Except.ok.inj h)
      exact hnew

end MemoryManager

/-- What `calloc` clears is the block that it has found, or lies below all heaps. -/
theorem calloc_moves {count : ℕ} (hs : m.Sound k bs) (hphase : m.Phase k)
    (hadmits : count * size ≠ 0 → m.Admits (count * size))
    (hsearches : count * size ≠ 0 →
      m.Searches (MemoryManager.adjustToMemBlock (count * size)))
    (hclear : ∀ m₁, m.malloc grows (count * size) = .ok (none, m₁) →
      count * size ≤ m.initialHeap)
    (h : m.calloc grows count size = .ok (r, m')) :
    ∃ k' bs', Moves m m' k k' bs bs' 0 (count * size) r := by
  have hbytes : u32 (count * size) = count * size := by
    by_cases hzero : count * size = 0
    · rw [hzero]
      rfl
    · have hrounds := (hadmits hzero).rounds
      exact u32_of_lt (Nat.lt_of_lt_of_le (Nat.lt_add_of_pos_right (by decide)) hrounds)
  rw [MemoryManager.calloc, hbytes] at h
  rcases hmalloc : m.malloc grows (count * size) with e | ⟨found, m₁⟩
  · rw [hmalloc] at h
    cases h
  · rw [hmalloc] at h
    obtain ⟨rfl, rfl⟩ := Prod.mk.inj (Except.ok.inj h)
    obtain ⟨k', bs', hmoves⟩ := malloc_moves hs hphase hadmits hsearches hmalloc
    refine ⟨k', bs', hmoves.rewrite fun a => ?_⟩
    by_cases hin : found.getD 0 ≤ a ∧ a < found.getD 0 + count * size
    · cases found with
      | some p => exact Or.inr (Or.inl ⟨p, rfl, hin.1, hin.2⟩)
      | none =>
          have hbelow := hclear m₁ hmalloc
          have hinitial := MemoryManager.malloc_initialHeap hmalloc
          have hlast : a < 0 + count * size := hin.2
          refine Or.inl fun i hi => Or.inl ?_
          have habove := hmoves.sound.above i hi
          show a < (m₁.availableHeaps i).heap
          omega
    · exact Or.inr (Or.inr (fill_outside (by omega)))

/-- One address is that of one block. -/
theorem MemoryManager.Sound.eq_of_addr (hs : m.Sound k bs) (hi : i < k) (hj : j < k)
    (hx : x ∈ bs i) (hy : y ∈ bs j) (haddr : x.addr = y.addr) : x = y := by
  have hmarker : sizeMarker = 4 := rfl
  by_cases hij : i = j
  · subst hij
    exact (hs.heaps.chained i hi).tiles.eq_of_addr (by decide) hx hy haddr
  · obtain ⟨hlow, hhigh⟩ := (hs.heaps.chained i hi).in_heap hx (a := x.addr) le_rfl (by omega)
    obtain ⟨hlow', hhigh'⟩ := (hs.heaps.chained j hj).in_heap hy (a := x.addr) haddr.ge (by omega)
    rcases hs.heaps.outside hj hi hij hlow hhigh with hout | hout <;> omega

/-- The block is moved to one that was found. -/
theorem moveTo_moves (hs : m.Sound k bs) (hi : i < k) (hx : x ∈ bs i) (hused : x.used = true)
    {n : ℕ} (hle : size ≤ n) (hpos : 0 < n) (hs' : m'.Sound k' bs') (hphase : m'.Phase k')
    (hevolves : Evolves m.bytes m'.bytes k k' bs bs') (hfresh : Fresh k bs k' bs' n p) :
    ∃ bs'', Moves m (m'.moveTo p (x.addr + sizeMarker) n x.size) k k' bs bs''
      (x.addr + sizeMarker) size (some p) := by
  have hmarker : sizeMarker = 4 := rfl
  obtain ⟨j, hj, y, hy, hyused, rfl, hysize, hnew⟩ := hfresh
  have hx' := hevolves.keeps i hi x hx hused
  have hi' := hi.trans_le hevolves.le
  have hsome := (hs.heaps.chained i hi).whole x hx
  have hxy := hnew i hi x hx hused
  generalize hcopy : (if n < x.size then n else x.size) = copySize
  have hcopyPos : 0 < copySize := by split at hcopy <;> omega
  have hcopyLe : copySize ≤ n ∧ copySize ≤ x.size ∧ min x.size size ≤ copySize := by
    split at hcopy <;> omega
  generalize hbytes : ByteMemory.copy m'.bytes (y.addr + sizeMarker) (x.addr + sizeMarker)
    copySize = mem₂
  have hsound : ({ m' with bytes := mem₂ } : MemoryManager).Sound k' bs' := by
    refine hs'.rewrite fun l hl a _ _ hnot => ?_
    rw [← hbytes]
    refine copy_outside ?_
    by_contra hin
    exact hnot ⟨j, hj, y, hy, hyused, by omega, by omega⟩
  have hcall : m'.moveTo (y.addr + sizeMarker) (x.addr + sizeMarker) n x.size =
      ({ m' with bytes := mem₂ } : MemoryManager).free (x.addr + sizeMarker) := by
    rw [MemoryManager.moveTo, hcopy, hbytes]
    exact if_pos hcopyPos
  obtain ⟨bs'', hfreed, hphase'', hothers, hframe⟩ :=
    MemoryManager.free_spec hsound hphase.withBytes hi' hx'
  dsimp only at hframe
  rw [hcall]
  refine ⟨bs'', hfreed, hphase'', hevolves.le, fun l hl z hz hzused hne => ?_,
    fun l hl z hz hzused hne a hlow hhigh => ?_, fun q hq => ?_,
    fun q hq l hl x₁ hx₁ _ hptr a ha => ?_⟩
  · exact hothers l (hl.trans_le hevolves.le) z (hevolves.keeps l hl z hz hzused) hzused
      (hne.resolve_right fun hnot => hnot (Or.inr rfl))
  · have hz' := hevolves.keeps l hl z hz hzused
    have hl' := hl.trans_le hevolves.le
    have hapart := hs'.apart hl' hj hz' hy (hnew l hl z hz hzused)
    rw [hframe a (Or.inr ⟨l, hl', z, hz', hzused, hlow, hhigh⟩), ← hbytes,
      copy_outside (by omega)]
    exact hevolves.frame a (Or.inr ⟨l, hl, z, hz, hzused, hlow, hhigh⟩)
  · obtain rfl := Option.some.inj hq
    refine ⟨j, hj, y, ?_, hyused, rfl, hle.trans hysize, fun l hl z hz hzused heq =>
      absurd heq (hnew l hl z hz hzused)⟩
    exact hothers j hj y hy hyused (by omega)
  · obtain rfl := Option.some.inj hq
    obtain rfl := hs.eq_of_addr hl hi hx₁ hx (by omega)
    rw [hframe _ (Or.inr ⟨j, hj, y, hy, hyused, by omega, by omega⟩), ← hbytes,
      copy_inside (by omega)]
    exact hevolves.frame _ (Or.inr ⟨i, hi, x₁, hx, hused, by omega, by omega⟩)

/-- The block is resized where it is. -/
theorem resize_moves (hs : m.Sound k bs) (hi : i < k) (hx : x ∈ bs i) {n : ℕ} (hle : size ≤ n)
    (hs' : m'.Sound k bs') (hphase : m'.Phase k)
    (hothers : MemoryManager.KeepsOthers k bs bs' (x.addr + sizeMarker))
    (hy : ∃ y ∈ bs' i, y.used = true ∧ y.addr = x.addr ∧ n ≤ y.size)
    (hframe : ∀ a, a < sizeMarker ∨ InUse k bs a →
      a < x.addr + sizeMarker + n ∨ x.addr + sizeMarker + x.size ≤ a →
        m'.bytes a = m.bytes a) :
    Moves m m' k k bs bs' (x.addr + sizeMarker) size (some (x.addr + sizeMarker)) := by
  have hmarker : sizeMarker = 4 := rfl
  have hgiven : ∀ {p : ℕ}, size = 0 ∨ (some p : Option ℕ).isSome = true := Or.inr rfl
  refine ⟨hs', hphase, le_rfl, fun j hj z hz hzused hne => ?_,
    fun j hj z hz hzused hne a hlow hhigh => ?_, fun q hq => ?_,
    fun q hq l hl x₁ hx₁ hused hptr a ha => ?_⟩
  · exact hothers j hj z hz hzused (hne.resolve_right fun hnot => hnot hgiven)
  · have hne := hne.resolve_right fun hnot => hnot hgiven
    refine hframe a (Or.inr ⟨j, hj, z, hz, hzused, hlow, hhigh⟩) ?_
    have hapart := hs.apart hj hi hz hx (by omega)
    omega
  · obtain rfl := Option.some.inj hq
    obtain ⟨y, hy, hyused, haddr, hysize⟩ := hy
    exact ⟨i, hi, y, hy, hyused, by rw [haddr], hle.trans hysize, fun _ _ _ _ _ _ => rfl⟩
  · obtain rfl := Option.some.inj hq
    obtain rfl := hs.eq_of_addr hl hi hx₁ hx (by omega)
    exact hframe _ (Or.inr ⟨i, hi, x₁, hx, hused, by omega, by omega⟩) (by omega)

theorem realloc_moves (hs : m.Sound k bs) (hphase : m.Phase k)
    (hptr : ptr = 0 ∨ ∃ i < k, ∃ x ∈ bs i, x.used = true ∧ ptr = x.addr + sizeMarker)
    (hadmits : size ≠ 0 → m.Admits size)
    (hfits : size ≠ 0 → m.Resizes ptr (MemoryManager.adjustToMemBlock size) ∧
      m.Searches (MemoryManager.adjustToMemBlock size))
    (h : m.realloc grows ptr size = .ok (r, m')) :
    ∃ k' bs', Moves m m' k k' bs bs' ptr size r := by
  have hmarker : sizeMarker = 4 := rfl
  by_cases hsize : size = 0
  · rw [MemoryManager.realloc, if_pos hsize] at h
    obtain ⟨rfl, rfl⟩ := Prod.mk.inj (Except.ok.inj h)
    subst hsize
    obtain ⟨bs', hmoves⟩ := free_moves hs hphase (hptr.imp_right fun ⟨i, hi, x, hx, _, hptr⟩ =>
      ⟨i, hi, x, hx, hptr⟩)
    exact ⟨k, bs', hmoves⟩
  obtain ⟨hrounds, hroom⟩ := hadmits hsize
  obtain ⟨hresizes, hsearches⟩ := hfits hsize
  obtain ⟨hwhole, hle, hlt⟩ := adjustToMemBlock_spec hrounds
  rw [MemoryManager.realloc, if_neg hsize] at h
  generalize MemoryManager.adjustToMemBlock size = n at *
  have hadjust : MemoryManager.adjustToMemBlock n = n := adjustToMemBlock_whole hwhole (by omega)
  -- the search for another block, where resizing has failed
  have hmalloc : ∀ {r₁ m₁}, m.malloc grows n = .ok (r₁, m₁) → ∃ k' bs', m₁.Sound k' bs' ∧
      m₁.Phase k' ∧ Evolves m.bytes m₁.bytes k k' bs bs' ∧
        ∀ p, r₁ = some p → Fresh k bs k' bs' n p := by
    intro r₁ m₁ hcall
    obtain ⟨k', bs', hsound, hphase', hevolves, hfresh⟩ := MemoryManager.malloc_spec hs hphase
      (show n ≠ 0 by omega) (hadjust.symm ▸ hwhole) (hadjust.symm ▸ hroom)
      (hadjust.symm ▸ hsearches) hcall
    rw [hadjust] at hfresh
    exact ⟨k', bs', hsound, hphase', hevolves, hfresh⟩
  have hmoved : ∀ {origPtrSize : ℕ}, m.resize ptr n = (none, origPtrSize, m) →
      (∀ p m₁, m.malloc grows n = .ok (some p, m₁) →
        ∃ k' bs', Moves m (m₁.moveTo p ptr n origPtrSize) k k' bs bs' ptr size (some p)) →
      ∃ k' bs', Moves m m' k k' bs bs' ptr size r := by
    intro origPtrSize hresize hfound
    rw [hresize] at h
    dsimp only at h
    rcases hcall : m.malloc grows n with e | ⟨_ | p, m₁⟩
    · rw [hcall] at h
      cases h
    · rw [hcall] at h
      obtain ⟨rfl, rfl⟩ := Prod.mk.inj (Except.ok.inj h)
      obtain ⟨k', bs', hsound, hphase', hevolves, -⟩ := hmalloc hcall
      exact ⟨k', bs', .of_evolves hsound hphase' hevolves (fun p hp => (by cases hp)) (Or.inl rfl)⟩
    · rw [hcall] at h
      obtain ⟨rfl, rfl⟩ := Prod.mk.inj (Except.ok.inj h)
      exact hfound p m₁ hcall
  rcases hptr with rfl | ⟨i, hi, x, hx, hused, rfl⟩
  · refine hmoved (if_pos rfl) fun p m₁ hcall => ?_
    obtain ⟨k', bs', hsound, hphase', hevolves, hfresh⟩ := hmalloc hcall
    have hnothing : m₁.moveTo p 0 n 0 = m₁ := by
      rw [MemoryManager.moveTo, if_neg (Nat.not_lt_zero n)]
      exact if_neg (lt_irrefl 0)
    rw [hnothing]
    exact ⟨k', bs', .of_evolves hsound hphase' hevolves (fun q hq => (hfresh q hq).mono hle)
      (Or.inr rfl)⟩
  · obtain hresize | ⟨m₁, bs', hresize, hsound, hphase', hothers, hy, hframe⟩ :=
      MemoryManager.resize_spec hs hphase hi hx hused hwhole hresizes
    · refine hmoved hresize fun p m₁ hcall => ?_
      obtain ⟨k', bs', hsound, hphase', hevolves, hfresh⟩ := hmalloc hcall
      obtain ⟨bs'', hmoves⟩ := moveTo_moves hs hi hx hused hle (by omega) hsound hphase' hevolves
        (hfresh p rfl)
      exact ⟨k', bs'', hmoves⟩
    · rw [hresize] at h
      obtain ⟨rfl, rfl⟩ := Prod.mk.inj (Except.ok.inj h)
      exact ⟨k, bs', resize_moves hs hi hx hle hsound hphase' hothers hy hframe⟩

end Xidata.Allocator
