import Xidata.Allocator.Moves
import Xidata.Library.Rollback

/-!
A program that allocates.  It calls the allocator with pointers that it was given before,
and writes to its blocks.  What the allocator owes it is that blocks are large enough and
apart from each other and from the headers, and that only the program changes what they
hold.

The allocator keeps this but for three slips.  Growing a block in place follows the free
blocks behind it past the last one, into memory that was never handed out; whether a block
fits into its heap is tested with a difference that wraps; and `calloc` clears memory from
address `0` on when there is none to be had.
-/

namespace Xidata.Allocator

open ByteMemory BlockChain Rollback

/-! ### The program -/

/-- A call, with a null pointer as `0`. -/
inductive Call
  | malloc (size : ℕ)
  | calloc (count size : ℕ)
  | realloc (ptr size : ℕ)
  | free (ptr : ℕ)

namespace Call

def run (grows : ℕ → Bool) (m : MemoryManager) : Call → Except String (Option ℕ × MemoryManager)
  | malloc size => m.malloc grows size
  | calloc count size => m.calloc grows count size
  | realloc ptr size => m.realloc grows ptr size
  | free ptr => .ok (none, m.free ptr)

/-- How many bytes are asked for. -/
def size : Call → ℕ
  | malloc size => size
  | calloc count size => count * size
  | realloc _ size => size
  | free _ => 0

/-- The block that is passed. -/
def ptr : Call → ℕ
  | malloc _ => 0
  | calloc _ _ => 0
  | realloc ptr _ => ptr
  | free ptr => ptr

/-- The block that is passed is given up, unless `realloc` fails. -/
def Releases (c : Call) (r : Option ℕ) : Prop := c.size = 0 ∨ r.isSome = true

instance (c : Call) (r : Option ℕ) : Decidable (c.Releases r) :=
  inferInstanceAs (Decidable (_ ∨ _))

/-- The blocks of the program after the call, with the sizes it has asked for. -/
def after (c : Call) (live : ℕ → Option ℕ) (r : Option ℕ) : ℕ → Option ℕ :=
  let rest := if c.Releases r then Function.update live c.ptr none else live
  r.elim rest fun p => Function.update rest p (some c.size)

end Call

/-- The allocator, and the blocks of the program with the sizes it has asked for. -/
structure State where
  manager : MemoryManager
  live : ℕ → Option ℕ

/-- A call, with the pages that the machine grants during it, or a write of the program. -/
inductive Event
  | call (c : Call) (grows : ℕ → Bool)
  | write (a : ℕ) (v : UInt8)

namespace State

/-- The call, with its result. -/
def perform (s : State) (c : Call) (grows : ℕ → Bool) : Except String (Option ℕ × State) :=
  (c.run grows s.manager).map fun result => (result.1, ⟨result.2, c.after s.live result.1⟩)

/-- A failed assertion ends the program; nothing is said of what would come after it. -/
def step (s : State) : Event → Except String State
  | .call c grows => (s.perform c grows).map Prod.snd
  | .write a v =>
    .ok { s with manager := { s.manager with bytes := Function.update s.manager.bytes a v } }

/-- The allocator before the first call: its array lies below the end of the memory, and no
slot holds a heap. -/
structure Initial (s : State) : Prop where
  live : s.live = fun _ => none
  availableHeaps : s.manager.availableHeaps = fun _ => .uninit
  heapsActualSize : s.manager.heapsActualSize = 0
  activeHeap : s.manager.activeHeap = 0
  activeFreeHeap : s.manager.activeFreeHeap = 0
  sbrkBytes : s.manager.sbrkBytes = none
  initialHeap : sizeMarker ≤ s.manager.initialHeap
  initialEnd : s.manager.initialHeap + initialHeapSize ≤ s.manager.brk
  pages : s.manager.currentMemory < 2 ^ 16

/-- What the program may do: pass its own blocks, ask for sizes that are not too large, and
write to its blocks and outside of the heaps. -/
def Allowed (s : State) : Event → Prop
  | .call c _ => (c.ptr = 0 ∨ (s.live c.ptr).isSome = true) ∧
      (c.size ≠ 0 → ∀ i, (s.manager.availableHeaps i).offset + c.size + 8 < 2 ^ 31)
  | .write a _ => (∃ p n, s.live p = some n ∧ p ≤ a ∧ a < p + n) ∨
      ∀ i, (s.manager.availableHeaps i).isInit = true → (s.manager.availableHeaps i).Outside a

/-- What the program may do, where whatever it asks for passes through the sums of the code
without wrapping. -/
def Admitted (s : State) : Event → Prop
  | .call c _ => (c.ptr = 0 ∨ (s.live c.ptr).isSome = true) ∧
      (c.size ≠ 0 → s.manager.Admits c.size)
  | .write a _ => (∃ p n, s.live p = some n ∧ p ≤ a ∧ a < p + n) ∨
      ∀ i, (s.manager.availableHeaps i).isInit = true → (s.manager.availableHeaps i).Outside a

/-- The call does not come to one of the slips: a block does not grow past the blocks of its
heap, no slot without a heap is searched that could give a block, and `calloc` finds a block
unless it clears memory below the heaps only. -/
def Fits (s : State) : Event → Prop
  | .call (.malloc size) _ =>
      size ≠ 0 → s.manager.Searches (MemoryManager.adjustToMemBlock size)
  | .call (.calloc count size) grows =>
      (count * size ≠ 0 → s.manager.Searches (MemoryManager.adjustToMemBlock (count * size))) ∧
        ∀ m, s.manager.malloc grows (count * size) = .ok (none, m) →
          count * size ≤ s.manager.initialHeap
  | .call (.realloc ptr size) _ =>
      size ≠ 0 → s.manager.Resizes ptr (MemoryManager.adjustToMemBlock size) ∧
        s.manager.Searches (MemoryManager.adjustToMemBlock size)
  | .call (.free _) _ => True
  | .write _ _ => True

theorem Allowed.admitted {s : State} {e : Event} (h : s.Allowed e) : s.Admitted e := by
  cases e with
  | call c grows =>
      refine ⟨h.1, fun hsize => ?_⟩
      have hmarker : sizeMarker = 4 := rfl
      have hactive := h.2 hsize s.manager.activeHeap
      have hrounds : c.size + sizeMarker ≤ 2 ^ 32 := by omega
      obtain ⟨-, -, hlt⟩ := adjustToMemBlock_spec hrounds
      exact ⟨hrounds, fun _ => by omega⟩
  | write a v => exact h

/-! ### What is owed to the program -/

/-- The headers of the heap in slot `i` tell of the blocks `xs`, from its start to its offset. -/
structure ChainedIn (s : State) (i : ℕ) (xs : List Block) : Prop where
  tiles : Tiles sizeMarker (s.manager.availableHeaps i).heap xs
    ((s.manager.availableHeaps i).heap + (s.manager.availableHeaps i).offset)
  heads : Heads (header s.manager.bytes) xs

/-- Every block of the program is a block of a heap, large enough and apart from the others
and from all headers. -/
structure Safe (s : State) : Prop where
  offset : ∀ i, (s.manager.availableHeaps i).offset ≤ (s.manager.availableHeaps i).heapSize
  chained : ∀ i, ∃ xs, s.ChainedIn i xs
  block : ∀ p n, s.live p = some n → ∃ i xs, (s.manager.availableHeaps i).isInit = true ∧
    s.ChainedIn i xs ∧ ∃ x ∈ xs, x.used = true ∧ p = x.addr + sizeMarker ∧ n ≤ x.size
  inside : ∀ p n, s.live p = some n → ∃ i, (s.manager.availableHeaps i).isInit = true ∧
    (s.manager.availableHeaps i).heap ≤ p ∧
      p + n ≤ (s.manager.availableHeaps i).heap + (s.manager.availableHeaps i).heapSize
  apart : ∀ p n q l, s.live p = some n → s.live q = some l → p ≠ q → p + n ≤ q ∨ q + l ≤ p
  headers : ∀ p n i xs, s.live p = some n → s.ChainedIn i xs →
    ∀ x ∈ xs, p + n ≤ x.addr ∨ x.addr + sizeMarker ≤ p

/-- What a call owes the program: a result is a block of the size asked for that was not the
program's before, unless it is the one passed; the others stay, with what they hold; and
`realloc` keeps what fits. -/
structure Serves (s : State) (c : Call) (r : Option ℕ) (s' : State) : Prop where
  result : ∀ p, r = some p → s'.live p = some c.size ∧ (s.live p = none ∨ p = c.ptr)
  others : ∀ q n, s.live q = some n → q ≠ c.ptr ∨ ¬ c.Releases r → s'.live q = some n ∧
    ∀ a, q ≤ a → a < q + n → s'.manager.bytes a = s.manager.bytes a
  moved : ∀ p n, r = some p → s.live c.ptr = some n →
    ∀ a, a < min n c.size → s'.manager.bytes (p + a) = s.manager.bytes (c.ptr + a)

end State

/-! ### Runs -/

variable {k k' p : ℕ} {bs bs' : ℕ → List Block} {r : Option ℕ} {grows : ℕ → Bool}
  {m m' : MemoryManager}

namespace State

/-- Each block of the program is a block in use. -/
def Owns (live : ℕ → Option ℕ) (k : ℕ) (bs : ℕ → List Block) : Prop :=
  ∀ p n, live p = some n → ∃ i < k, ∃ x ∈ bs i, x.used = true ∧ p = x.addr + sizeMarker ∧
    n ≤ x.size

/-- The invariant: the blocks of the program are among those of the heaps. -/
structure Inv (s : State) : Prop where
  heaps : ∃ k bs, s.manager.Sound k bs ∧ s.manager.Phase k ∧ Owns s.live k bs

variable {s s' : State} {c : Call}

theorem after_found (live : ℕ → Option ℕ) : c.after live (some p) p = some c.size :=
  Function.update_self _ _ _

theorem after_other {live : ℕ → Option ℕ} {q : ℕ} (hr : r ≠ some q)
    (hq : q ≠ c.ptr ∨ ¬ c.Releases r) : c.after live r q = live q := by
  have hrest : (if c.Releases r then Function.update live c.ptr none else live) q = live q := by
    split_ifs with hreleases
    · exact Function.update_of_ne (hq.resolve_right fun hnot => hnot hreleases) _ _
    · rfl
  rw [Call.after]
  cases r with
  | none => exact hrest
  | some p => exact (Function.update_of_ne (fun heq => hr (congrArg some heq.symm)) _ _).trans hrest

theorem after_given {live : ℕ → Option ℕ} (hr : r ≠ some c.ptr) (hreleases : c.Releases r) :
    c.after live r c.ptr = none := by
  rw [Call.after, if_pos hreleases]
  cases r with
  | none => exact Function.update_self _ _ _
  | some p =>
      have hne : c.ptr ≠ p := fun heq => hr (congrArg some heq.symm)
      exact (Function.update_of_ne hne _ _).trans (Function.update_self _ _ _)

/-- The program's blocks after a call. -/
theorem owns_after {live : ℕ → Option ℕ} (hmoves : Moves m m' k k' bs bs' c.ptr c.size r)
    (howns : Owns live k bs) : Owns (c.after live r) k' bs' := by
  intro q n hq
  by_cases hr : r = some q
  · obtain ⟨i, hi, y, hy, hused, hp, hsize, -⟩ := hmoves.found q hr
    subst hr
    rw [after_found] at hq
    exact ⟨i, hi, y, hy, hused, hp, Option.some.inj hq ▸ hsize⟩
  · by_cases hkept : q ≠ c.ptr ∨ ¬ c.Releases r
    · rw [after_other hr hkept] at hq
      obtain ⟨i, hi, x, hx, hused, rfl, hsize⟩ := howns q n hq
      exact ⟨i, hi.trans_le hmoves.le, x, hmoves.keeps i hi x hx hused hkept, hused, rfl, hsize⟩
    · obtain ⟨hq', hreleases⟩ := not_or.mp hkept
      obtain rfl := not_not.mp hq'
      rw [after_given hr (not_not.mp hreleases)] at hq
      cases hq

/-- What the heaps do serves the program. -/
theorem serves_of_moves (hmoves : Moves s.manager m' k k' bs bs' c.ptr c.size r)
    (howns : Owns s.live k bs) : Serves s c r ⟨m', c.after s.live r⟩ := by
  -- a block that was the program's before is found only if it was passed
  have hsame : ∀ q n, r = some q → s.live q = some n → q = c.ptr := by
    intro q n hr hq
    obtain ⟨i, hi, y, hy, hused, hp, hsize, honly⟩ := hmoves.found q hr
    obtain ⟨j, hj, x, hx, hxused, hxq, -⟩ := howns q n hq
    exact honly j hj x hx hxused (by omega)
  refine ⟨fun q hr => ⟨?_, ?_⟩, fun q n hq hkept => ⟨?_, ?_⟩, fun q n hr hptr a ha => ?_⟩
  · subst hr
    exact after_found s.live
  · cases hlive : s.live q with
    | none => exact Or.inl rfl
    | some n => exact Or.inr (hsame q n hr hlive)
  · refine (after_other (fun hr => ?_) hkept).trans hq
    rcases hkept with hne | hnot
    · exact hne (hsame q n hr hq)
    · exact hnot (Or.inr (hr ▸ rfl))
  · intro a hlow hhigh
    obtain ⟨i, hi, x, hx, hused, rfl, hsize⟩ := howns q n hq
    exact hmoves.frame i hi x hx hused hkept a hlow (by omega)
  · obtain ⟨i, hi, x, hx, hused, hptr', hsize⟩ := howns _ n hptr
    exact hmoves.moved q hr i hi x hx hused hptr' a (by omega)

/-- The invariant is what the program relies on. -/
theorem Inv.safe (h : Inv s) : s.Safe := by
  obtain ⟨k, bs, hs, hphase, howns⟩ := h.heaps
  have hmarker : sizeMarker = 4 := rfl
  have hinit : ∀ i < k, (s.manager.availableHeaps i).isInit = true := fun i hi => by
    have hheap := (hs.heaps.chained i hi).inRange.heap
    exact bne_iff_ne.mpr (by omega)
  have hchained : ∀ i < k, s.ChainedIn i (bs i) := fun i hi =>
    ⟨(hs.heaps.chained i hi).tiles, (hs.heaps.chained i hi).heads⟩
  have hunused : ∀ i, k ≤ i → s.ChainedIn i [] := fun i hi => by
    refine ⟨?_, fun x hx => (by cases hx)⟩
    rw [hs.heaps.unused i hi]
    rfl
  refine ⟨fun i => ?_, fun i => ?_, fun p n hp => ?_, fun p n hp => ?_,
    fun p n q l hp hq hne => ?_, fun p n i xs hp hxs x hx => ?_⟩
  · rcases Nat.lt_or_ge i k with hi | hi
    · exact (hs.heaps.chained i hi).inRange.offset
    · rw [hs.heaps.unused i hi]
      exact le_rfl
  · rcases Nat.lt_or_ge i k with hi | hi
    · exact ⟨bs i, hchained i hi⟩
    · exact ⟨[], hunused i hi⟩
  · obtain ⟨i, hi, x, hx, hused, hptr, hsize⟩ := howns p n hp
    exact ⟨i, bs i, hinit i hi, hchained i hi, x, hx, hused, hptr, hsize⟩
  · obtain ⟨i, hi, x, hx, hused, hptr, hsize⟩ := howns p n hp
    have hbounds := (hs.heaps.chained i hi).bounds hx
    have hoffset := (hs.heaps.chained i hi).inRange.offset
    exact ⟨i, hinit i hi, by omega, by omega⟩
  · obtain ⟨i, hi, x, hx, -, hptr, hsize⟩ := howns p n hp
    obtain ⟨j, hj, y, hy, -, hptr', hsize'⟩ := howns q l hq
    have hapart := hs.apart hi hj hx hy (by omega)
    omega
  · obtain ⟨j, hj, y, hy, -, hptr, hsize⟩ := howns p n hp
    rcases Nat.lt_or_ge i k with hi | hi
    · obtain rfl := hxs.tiles.unique (by decide) (hchained i hi).tiles hxs.heads
        (hchained i hi).heads
      by_cases hne : x.addr = y.addr
      · omega
      · have hapart := hs.apart hi hj hx hy hne
        omega
    · obtain rfl := hxs.tiles.unique (by decide) (hunused i hi).tiles hxs.heads (hunused i hi).heads
      cases hx

theorem run_moves (hs : s.manager.Sound k bs) (hphase : s.manager.Phase k)
    (howns : Owns s.live k bs) (hadmitted : s.Admitted (.call c grows))
    (hfits : s.Fits (.call c grows)) (h : c.run grows s.manager = .ok (r, m')) :
    ∃ k' bs', Moves s.manager m' k k' bs bs' c.ptr c.size r := by
  obtain ⟨hptr, hadmits⟩ := hadmitted
  have howned : c.ptr = 0 ∨ ∃ i < k, ∃ x ∈ bs i, x.used = true ∧ c.ptr = x.addr + sizeMarker := by
    refine hptr.imp_right fun hlive => ?_
    obtain ⟨n, hn⟩ := Option.isSome_iff_exists.mp hlive
    obtain ⟨i, hi, x, hx, hused, hp, -⟩ := howns _ _ hn
    exact ⟨i, hi, x, hx, hused, hp⟩
  cases c with
  | malloc size => exact malloc_moves hs hphase hadmits hfits h
  | calloc count size => exact calloc_moves hs hphase hadmits hfits.1 hfits.2 h
  | realloc ptr size => exact realloc_moves hs hphase howned hadmits hfits h
  | free ptr =>
      obtain ⟨rfl, rfl⟩ := Prod.mk.inj (Except.ok.inj h)
      obtain ⟨bs', hmoves⟩ := free_moves hs hphase (howned.imp_right
        fun ⟨i, hi, x, hx, _, hp⟩ => ⟨i, hi, x, hx, hp⟩)
      exact ⟨k, bs', hmoves⟩

/-- What a step that is not one of the slips owes the program. -/
def Respects (s : State) (e : Event) (s' : State) : Prop :=
  ∀ c grows, e = .call c grows → ∃ r, s.perform c grows = .ok (r, s') ∧ s.Serves c r s'

theorem inv_step {e : Event} (hs : Inv s) (h : s.step e = .ok s') (hadmitted : s.Admitted e)
    (hfits : s.Fits e) : Inv s' ∧ s.Respects e s' := by
  obtain ⟨k, bs, hsound, hphase, howns⟩ := hs.heaps
  cases e with
  | call c grows =>
      rcases hrun : c.run grows s.manager with e | ⟨r, m'⟩
      · rw [step, perform, hrun] at h
        cases h
      · rw [step, perform, hrun] at h
        obtain rfl := Except.ok.inj h
        obtain ⟨k', bs', hmoves⟩ := run_moves hsound hphase howns hadmitted hfits hrun
        refine ⟨⟨k', bs', hmoves.sound, hmoves.phase, owns_after hmoves howns⟩, ?_⟩
        rintro c' grows' heq
        obtain ⟨rfl, rfl⟩ := Event.call.inj heq
        exact ⟨r, by rw [perform, hrun]; rfl, serves_of_moves hmoves howns⟩
  | write a v =>
      obtain rfl := Except.ok.inj h
      refine ⟨⟨k, bs, hsound.rewrite fun i hi b hlow hhigh hnot => ?_, hphase.withBytes, howns⟩,
        fun c grows heq => (by cases heq)⟩
      refine Function.update_of_ne ?_ _ _
      rintro rfl
      rcases hadmitted with ⟨p, n, hp, hlow', hhigh'⟩ | hout
      · obtain ⟨j, hj, x, hx, hused, rfl, hsize⟩ := howns p n hp
        exact hnot ⟨j, hj, x, hx, hused, hlow', by omega⟩
      · have hheap := (hsound.heaps.chained i hi).inRange.heap
        have hmarker : sizeMarker = 4 := rfl
        rcases hout i (bne_iff_ne.mpr (by omega)) with hout | hout <;> omega

theorem inv_initial (h : Initial s) : Inv s := by
  have hslots : ∀ i, s.manager.availableHeaps i = .uninit := fun i => by rw [h.availableHeaps]
  have hheaps : Heaps s.manager.bytes s.manager.availableHeaps 0 fun _ => [] :=
    ⟨fun i hi => absurd hi (Nat.not_lt_zero i), fun i hi => absurd hi (Nat.not_lt_zero i),
      fun i _ => hslots i, fun i j _ hj => absurd hj (Nat.not_lt_zero j)⟩
  have hnone {q : ℕ → Prop} : ∀ i < 0, q i := fun i hi => absurd hi (Nat.not_lt_zero i)
  refine ⟨0, fun _ => [],
    ⟨hheaps, hnone, hnone, h.initialHeap, h.initialEnd, h.pages, fun b hb => ?_⟩,
    .unused rfl ⟨h.heapsActualSize, h.activeHeap, h.activeFreeHeap⟩, fun p n hp => ?_⟩
  · rw [h.sbrkBytes] at hb
    cases hb
  · rw [h.live] at hp
    cases hp

/-- In every run without the slips the blocks of the program are its own: large enough, inside
of a heap, and apart from each other and from the headers, which chain from the start of each
heap to its offset; and no call changes what the program's other blocks hold. -/
theorem safe_run (hs : Initial s) {es : List Event}
    (h : Along step (fun s e _ => s.Allowed e ∧ s.Fits e) s es) :
    (∀ t ∈ trace step s es, Safe t) ∧ Along step Respects s es := by
  have hstep : ∀ s e s', Inv s → step s e = .ok s' → s.Allowed e ∧ s.Fits e →
      Inv s' ∧ s.Respects e s' := fun s e s' hinv hok hgood =>
        inv_step hinv hok (hgood.1.admitted) hgood.2
  refine ⟨fun t ht => Inv.safe ?_, Along.of_invariant hstep h (inv_initial hs)⟩
  exact trace_induction_along (fun s e s' hinv hok hgood => (hstep s e s' hinv hok hgood).1) h
    (inv_initial hs) t ht

/-! ### Two runs -/

/-- The allocator in a memory of one page, all zero, with its array at `1024`. -/
def onePage : State := ⟨⟨fun _ => 0, 1, none, 1024, fun _ => .uninit, 0, 0, 0⟩, fun _ => none⟩

theorem initial_onePage : Initial onePage :=
  ⟨rfl, rfl, rfl, rfl, rfl, rfl, by decide, by decide, by decide⟩

/-- Sizes are small enough where only the first slot holds a heap. -/
theorem offset_lt (h h' : Memory) {n : ℕ}
    (hheaps : s.manager.availableHeaps =
      Function.update (Function.update (fun _ => .uninit) 0 h') 0 h)
    (hlt : h.offset + n + 8 < 2 ^ 31) (i : ℕ) :
    (s.manager.availableHeaps i).offset + n + 8 < 2 ^ 31 := by
  rw [hheaps, Function.update_idem]
  by_cases hi : i = 0
  · subst hi
    rw [Function.update_self]
    exact hlt
  · rw [Function.update_of_ne hi]
    show 0 + n + 8 < 2 ^ 31
    omega

/-- A block of 20 bytes that is written to, shrinks and is given up. -/
def shrinks : List Event :=
  [.call (.malloc 20) fun _ => true, .write 1030 7, .call (.realloc 1028 12) fun _ => true,
    .call (.free 1028) fun _ => true]

theorem safe_run_shrinks :
    (∀ t ∈ trace step onePage shrinks, Safe t) ∧ Along step Respects onePage shrinks := by
  refine safe_run initial_onePage ⟨fun _ _ => ⟨⟨Or.inl rfl, fun _ i => ?_⟩, fun _ _ _ hbrk => ?_⟩,
    fun _ _ => ⟨Or.inl ⟨1028, 20, by decide +kernel, by decide, by decide⟩, trivial⟩,
    fun _ _ => ⟨⟨Or.inr (by decide +kernel), fun _ => ?_⟩,
      fun _ => ⟨fun i _ hlt => ?_, fun _ _ hbrk => ?_⟩⟩,
    fun _ _ => ⟨⟨Or.inr (by decide +kernel), fun hsize => absurd rfl hsize⟩, trivial⟩, trivial⟩
  · show 0 + 20 + 8 < 2 ^ 31
    decide
  · exact absurd hbrk (by decide)
  · exact offset_lt ⟨8192, 1024, 24⟩ ⟨8192, 1024, 0⟩ rfl (by decide)
  · exact absurd hlt (by decide +kernel)
  · exact absurd hbrk (by decide +kernel)

/-- A block of 20 bytes that is to have more than there are below the end of its heap. -/
def growsPast : List Event :=
  [.call (.malloc 20) fun _ => true, .call (.realloc 1028 20000) fun _ => true]

theorem safe_run_fails :
    ¬ ∀ s : State, Initial s → (∀ a, s.manager.initialHeap ≤ a → s.manager.bytes a = 0) →
      ∀ es : List Event, Along step (fun s e _ => s.Allowed e) s es →
        (∀ t ∈ trace step s es, Safe t) ∧ Along step Respects s es := by
  intro hall
  have hallowed : Along step (fun s e _ => s.Allowed e) onePage growsPast := by
    refine ⟨fun _ _ => ⟨Or.inl rfl, fun _ i => ?_⟩, fun _ _ => ⟨Or.inr (by decide +kernel),
      fun _ => ?_⟩, trivial⟩
    · show 0 + 20 + 8 < 2 ^ 31
      decide
    · exact offset_lt ⟨8192, 1024, 24⟩ ⟨8192, 1024, 0⟩ rfl (by decide)
  have hsafe := (hall onePage initial_onePage (fun _ _ => rfl) growsPast hallowed).1 _
    (run_mem_trace _ _)
  obtain ⟨i, hinit, -, hend⟩ := hsafe.inside 1028 20000 (by decide +kernel)
  have hheaps : (run step onePage growsPast).manager.availableHeaps =
      Function.update (Function.update (Function.update (fun _ => .uninit) 0 ⟨8192, 1024, 0⟩) 0
        ⟨8192, 1024, 24⟩) 0 ⟨8192, 1024, 20008⟩ := rfl
  rw [hheaps, Function.update_idem, Function.update_idem] at hinit hend
  by_cases hi : i = 0
  · subst hi
    exact absurd hend (by decide)
  · rw [Function.update_of_ne hi] at hinit
    exact absurd hinit (by decide)

end State

end Xidata.Allocator
