import Xidata.Allocator.Safety

/-!
Requests of any 32-bit size.  Rounding to whole memory blocks, the header and the offset are
added without a test for overflow, and so is the product of `calloc` formed; a request is
answered with a null pointer or a block that holds it as long as none of these wraps.
-/

namespace Xidata.Allocator

open ByteMemory BlockChain Rollback

namespace State

/-- The block at `p` holds `n` bytes by what its header tells, and lies in the part of a heap
that was handed out. -/
def Holds (s : State) (p n : ℕ) : Prop :=
  ∃ i, (s.manager.availableHeaps i).isInit = true ∧
    (s.manager.availableHeaps i).heap + sizeMarker ≤ p ∧ n ≤ s.manager.blockSize p ∧
    p + s.manager.blockSize p ≤
      (s.manager.availableHeaps i).heap + (s.manager.availableHeaps i).offset ∧
    (s.manager.availableHeaps i).offset ≤ (s.manager.availableHeaps i).heapSize

/-- A call answers with a null pointer or a block that holds what it asks for. -/
def Grants (s : State) (e : Event) (s' : State) : Prop :=
  ∀ c grows, e = .call c grows →
    ∃ r, s.perform c grows = .ok (r, s') ∧ ∀ p, r = some p → s'.Holds p c.size

variable {s s' : State} {k : ℕ} {bs : ℕ → List Block}

/-- A block among those of the heaps. -/
theorem holds_of_mem (hs : s.manager.Sound k bs) {i n : ℕ} (hi : i < k) {y : Block}
    (hy : y ∈ bs i) (hn : n ≤ y.size) : s.Holds (y.addr + sizeMarker) n := by
  have hchained := hs.heaps.chained i hi
  have hheap := hchained.inRange.heap
  have hbounds := hchained.bounds hy
  have hmarker : sizeMarker = 4 := rfl
  refine ⟨i, bne_iff_ne.mpr (by omega), Nat.add_le_add_right hbounds.1 _, ?_, ?_,
    hchained.inRange.offset⟩
  · rwa [hs.blockSize hi hy]
  · rw [hs.blockSize hi hy]
    exact hbounds.2.1

theorem grants_step {e : Event} (hs : Inv s) (h : s.step e = .ok s') (hadmitted : s.Admitted e)
    (hfits : s.Fits e) : s.Grants e s' := by
  obtain ⟨k, bs, hsound, hphase, howns⟩ := hs.heaps
  rintro c grows rfl
  rcases hrun : c.run grows s.manager with e | ⟨r, m'⟩
  · rw [step, perform, hrun] at h
    cases h
  · rw [step, perform, hrun] at h
    obtain rfl := Except.ok.inj h
    obtain ⟨k', bs', hmoves⟩ := run_moves hsound hphase howns hadmitted hfits hrun
    refine ⟨r, by rw [perform, hrun]; rfl, fun p hp => ?_⟩
    obtain ⟨i, hi, y, hy, -, rfl, hsize, -⟩ := hmoves.found p hp
    exact holds_of_mem hmoves.sound hi hy hsize

/-- In every run in which no request wraps, and without the slips, a call answers with a null
pointer or a block that holds what it asks for, and no heap is used beyond its size. -/
theorem granted_run (hs : Initial s) {es : List Event}
    (h : Along step (fun s e _ => s.Admitted e ∧ s.Fits e) s es) :
    (∀ t ∈ trace step s es, ∀ i,
      (t.manager.availableHeaps i).offset ≤ (t.manager.availableHeaps i).heapSize) ∧
      Along step Grants s es := by
  have hstep : ∀ s e s', Inv s → step s e = .ok s' → s.Admitted e ∧ s.Fits e →
      Inv s' ∧ s.Grants e s' := fun s e s' hinv hok hgood =>
    ⟨(inv_step hinv hok hgood.1 hgood.2).1, grants_step hinv hok hgood.1 hgood.2⟩
  refine ⟨fun t ht => (Inv.safe ?_).offset, Along.of_invariant hstep h (inv_initial hs)⟩
  exact trace_induction_along (fun s e s' hinv hok hgood => (hstep s e s' hinv hok hgood).1) h
    (inv_initial hs) t ht

/-- A block of 20 bytes, and a request for half of what can be addressed, with no page more to
be had. -/
def asksForHalf : List Event :=
  [.call (.malloc 20) fun _ => true, .call (.malloc 2147483648) fun _ => false]

theorem granted_run_asksForHalf :
    (∀ t ∈ trace step onePage asksForHalf, ∀ i,
      (t.manager.availableHeaps i).offset ≤ (t.manager.availableHeaps i).heapSize) ∧
      Along step Grants onePage asksForHalf := by
  refine granted_run initial_onePage
    ⟨fun _ _ => ⟨⟨Or.inl rfl, fun _ => ⟨by decide, fun _ => by decide⟩⟩, fun _ hlt => ?_⟩,
      fun _ _ => ⟨⟨Or.inl rfl, fun _ => ⟨by decide, fun _ => by decide +kernel⟩⟩,
        fun _ _ hfull => ?_⟩, trivial⟩
  · exact absurd hlt (by decide)
  · exact absurd hfull (by unfold MemoryManager.Full; decide +kernel)

/-- For the largest size the rounded one wraps to `4`, and a block of four bytes is returned. -/
theorem malloc_largest :
    Initial onePage ∧ ∃ s', onePage.perform (.malloc 4294967295) (fun _ => true) =
        .ok (some 1028, s') ∧ s'.manager.blockSize 1028 = 4 ∧
      ¬ Grants onePage (.call (.malloc 4294967295) fun _ => true) s' := by
  have hcall : ∃ result, onePage.perform (.malloc 4294967295) (fun _ => true) = .ok result ∧
      result.1 = some 1028 ∧ result.2.manager.blockSize 1028 = 4 := by
    decide +kernel
  obtain ⟨⟨_, s'⟩, hcall, rfl, hsize⟩ := hcall
  refine ⟨initial_onePage, s', hcall, hsize, fun hgrants => ?_⟩
  obtain ⟨r, hr, hholds⟩ := hgrants _ _ rfl
  rw [hcall] at hr
  obtain ⟨rfl, -⟩ := Prod.mk.inj (Except.ok.inj hr)
  obtain ⟨i, -, -, hle, -⟩ := hholds 1028 rfl
  rw [hsize] at hle
  exact absurd hle (by decide)

end State

end Xidata.Allocator
