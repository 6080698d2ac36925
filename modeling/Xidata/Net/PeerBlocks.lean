import Xidata.Library.Rollback
import Xidata.Library.UniqueIndex
import Xidata.Net.Protocol

/-!
What a connection keeps of the blocks that its peer has.  The entries are unique by the number
of the block as well as by its id, so that of two blocks with one number only the first is kept;
and a block that is added again loses its number if it comes without one, and does not get it
if it comes with one.
-/

namespace Xidata.Net

structure PeerBlockState where
  id : BlockId
  blockNum : UInt32 := 0
  isKnown : Bool := false
  isNoticed : Bool := false
  requestedTime : ℤ := 0
  deriving DecidableEq

namespace PeerBlockState

def setIsKnown (bs : PeerBlockState) : PeerBlockState := { bs with isKnown := true }

def setRequestTime (now : ℤ) (bs : PeerBlockState) : PeerBlockState :=
  { bs with requestedTime := now }

def updateBlockNum (newBnum : UInt32) (bs : PeerBlockState) : PeerBlockState :=
  { bs with blockNum := newBnum }

end PeerBlockState

open PeerBlockState

/-- `blk_state`, by the id and by the number of a block. -/
abbrev PeerBlockStateIndex := UniqueIndex PeerBlockState.id PeerBlockState.blockNum

namespace PeerBlockStateIndex

/-- Whether an entry could be inserted is not looked at. -/
def addPeerBlock (blkState : PeerBlockStateIndex) (now : ℤ) (entry : PeerBlockState) :
    PeerBlockStateIndex × Bool :=
  match blkState.find entry.id with
  | none => (blkState.insert entry, true)
  | some _ =>
    let blkState := blkState.modify entry.id setIsKnown
    if entry.blockNum = 0 then
      (blkState.modify entry.id (updateBlockNum entry.blockNum), false)
    else (blkState.modify entry.id (setRequestTime now), false)

variable {t : PeerBlockStateIndex} {now : ℤ} {entry row : PeerBlockState}

theorem addPeerBlock_new (h : t.find entry.id = none) :
    t.addPeerBlock now entry = (t.insert entry, true) := by
  rw [addPeerBlock, h]

/-- A block that is there is changed twice, the second time by its number or its time. -/
theorem addPeerBlock_again (h : t.find entry.id = some row) :
    t.addPeerBlock now entry = ((t.modify entry.id setIsKnown).modify entry.id
      (if entry.blockNum = 0 then updateBlockNum entry.blockNum else setRequestTime now), false) := by
  rw [addPeerBlock, h]
  dsimp only
  split <;> rfl

theorem find_addPeerBlock_of_ne {id : BlockId} (hne : id ≠ entry.id) :
    (t.addPeerBlock now entry).1.find id = t.find id := by
  cases h : t.find entry.id with
  | none => rw [addPeerBlock_new h, UniqueIndex.find_insert_of_ne hne.symm]
  | some row =>
      rw [addPeerBlock_again h]
      dsimp only
      rw [UniqueIndex.find_modify_of_ne (fun bs => by split <;> rfl) hne,
        UniqueIndex.find_modify_of_ne (f := setIsKnown) (fun bs => rfl) hne]

/-- A block that is added again with its number is known and keeps the number. -/
theorem find_addPeerBlock_of_same (h : t.find entry.id = some row)
    (hnum : row.blockNum = entry.blockNum) :
    ∃ row', (t.addPeerBlock now entry).1.find entry.id = some row' ∧ row'.isKnown = true ∧
      row'.blockNum = entry.blockNum := by
  have hknown : (t.modify entry.id setIsKnown).find entry.id = some row.setIsKnown :=
    UniqueIndex.find_modify_of_same (fun bs => rfl) h rfl
  rw [addPeerBlock_again h]
  by_cases hzero : entry.blockNum = 0
  · rw [if_pos hzero]
    exact ⟨_, UniqueIndex.find_modify_of_same (fun bs => rfl) hknown hnum.symm, rfl, rfl⟩
  · rw [if_neg hzero]
    exact ⟨_, UniqueIndex.find_modify_of_same (fun bs => rfl) hknown rfl, rfl, hnum⟩

/-- A block that is added again is left without a number, or with the one it had. -/
theorem find_addPeerBlock_again (h : t.find entry.id = some row) {row' : PeerBlockState}
    (h' : (t.addPeerBlock now entry).1.find entry.id = some row') :
    row'.blockNum = if entry.blockNum = 0 then 0 else row.blockNum := by
  rw [addPeerBlock_again h] at h'
  obtain ⟨bs, hbs, rfl⟩ := UniqueIndex.find_of_find_modify h'
  obtain ⟨bs', hbs', rfl⟩ := UniqueIndex.find_of_find_modify hbs
  cases h.symm.trans hbs'
  by_cases hzero : entry.blockNum = 0
  · rw [if_pos hzero, if_pos hzero]
    exact hzero
  · rw [if_neg hzero, if_neg hzero]
    rfl

end PeerBlockStateIndex

/-! ### Sequences of calls -/

/-- The table, and the calls of `add_peer_block` so far with their results. -/
structure PeerBlocks where
  blkState : PeerBlockStateIndex := .empty
  calls : List (PeerBlockState × Bool) := []

/-- A call with the time at which it is made. -/
structure AddPeerBlock where
  now : ℤ
  entry : PeerBlockState
  deriving DecidableEq

namespace PeerBlocks

open PeerBlockStateIndex

def step (s : PeerBlocks) (e : AddPeerBlock) : Except Unit PeerBlocks :=
  let r := s.blkState.addPeerBlock e.now e.entry
  .ok { blkState := r.1, calls := s.calls ++ [(e.entry, r.2)] }

/-- Nothing that the peer is known to have is lost, and only the first call with an id is
told that it is new. -/
structure Remembers (s : PeerBlocks) : Prop where
  present : ∀ call ∈ s.calls, ∃ row, s.blkState.find call.1.id = some row ∧
    (call.1.isKnown = true → row.isKnown = true) ∧
      (call.1.blockNum ≠ 0 → row.blockNum = call.1.blockNum)
  results : ∀ i call, s.calls[i]? = some call →
    (call.2 = true ↔ ∀ earlier ∈ s.calls.take i, earlier.1.id ≠ call.1.id)

/-- A new block has a number of its own, none being one, and a block that is added again has
the number that it has been added with. -/
def Fits (s : PeerBlocks) (e : AddPeerBlock) : Prop :=
  match s.blkState.find e.entry.id with
  | none => ∀ row ∈ s.blkState.rows, row.blockNum ≠ e.entry.blockNum
  | some row => row.blockNum = e.entry.blockNum

instance (s : PeerBlocks) (e : AddPeerBlock) : Decidable (s.Fits e) := by
  unfold Fits
  cases s.blkState.find e.entry.id <;> infer_instance

/-- What is kept of the calls, with the number each of them has come with. -/
structure Inv (s : PeerBlocks) : Prop where
  kept : ∀ call ∈ s.calls, ∃ row, s.blkState.find call.1.id = some row ∧
    (call.1.isKnown = true → row.isKnown = true) ∧ row.blockNum = call.1.blockNum
  called : ∀ id row, s.blkState.find id = some row → ∃ call ∈ s.calls, call.1.id = id
  results : ∀ i call, s.calls[i]? = some call →
    (call.2 = true ↔ ∀ earlier ∈ s.calls.take i, earlier.1.id ≠ call.1.id)

variable {s s' : PeerBlocks} {e : AddPeerBlock}

theorem Inv.remembers (h : s.Inv) : s.Remembers where
  present call hcall := by
    obtain ⟨row, hfind, hknown, hnum⟩ := h.kept call hcall
    exact ⟨row, hfind, hknown, fun _ => hnum⟩
  results := h.results

/-- An id is found if and only if there has been a call with it. -/
theorem Inv.find_eq_none_iff (h : s.Inv) (id : BlockId) :
    s.blkState.find id = none ↔ ∀ call ∈ s.calls, call.1.id ≠ id := by
  constructor
  · rintro hnone call hcall rfl
    obtain ⟨row, hfind, -⟩ := h.kept call hcall
    cases hnone.symm.trans hfind
  · intro hnone
    cases hfind : s.blkState.find id with
    | none => rfl
    | some row =>
        obtain ⟨call, hcall, hid⟩ := h.called id row hfind
        exact absurd hid (hnone call hcall)

/-- The results so far, and that of one more call. -/
theorem results_concat {calls : List (PeerBlockState × Bool)} {last : PeerBlockState × Bool}
    (h : ∀ i call, calls[i]? = some call →
      (call.2 = true ↔ ∀ earlier ∈ calls.take i, earlier.1.id ≠ call.1.id))
    (hlast : last.2 = true ↔ ∀ earlier ∈ calls, earlier.1.id ≠ last.1.id) :
    ∀ i call, (calls ++ [last])[i]? = some call →
      (call.2 = true ↔ ∀ earlier ∈ (calls ++ [last]).take i, earlier.1.id ≠ call.1.id) := by
  intro i call hcall
  rcases Nat.lt_or_ge i calls.length with hi | hi
  · rw [List.getElem?_append_left hi] at hcall
    rw [List.take_append_of_le_length hi.le]
    exact h i call hcall
  · have hi' : i < (calls ++ [last]).length := (List.getElem?_eq_some_iff.mp hcall).1
    rw [List.length_append, List.length_singleton] at hi'
    obtain rfl : i = calls.length := by omega
    rw [List.getElem?_concat_length] at hcall
    cases hcall
    rw [List.take_left]
    exact hlast

theorem Inv.step (h : s.Inv) (hstep : s.step e = .ok s') (hfits : s.Fits e) : s'.Inv := by
  cases hstep
  cases hfind : s.blkState.find e.entry.id with
  | none =>
      rw [Fits, hfind] at hfits
      have hfree : ¬ s.blkState.Taken e.entry := by
        rintro ⟨row, hrow, hid | hnum⟩
        · exact UniqueIndex.find_eq_none.mp hfind row hrow hid
        · exact hfits row hrow hnum
      have hnew : ∀ call ∈ s.calls, call.1.id ≠ e.entry.id := (h.find_eq_none_iff _).mp hfind
      have hadd : s.blkState.addPeerBlock e.now e.entry = (s.blkState.insert e.entry, true) :=
        addPeerBlock_new hfind
      rw [hadd]
      refine ⟨fun call hcall => ?_, fun id row hrow => ?_, results_concat h.results ?_⟩
      · rw [List.mem_append, List.mem_singleton] at hcall
        rcases hcall with hcall | rfl
        · rw [UniqueIndex.find_insert_of_ne (hnew call hcall).symm]
          exact h.kept call hcall
        · exact ⟨e.entry, UniqueIndex.find_insert_self hfree, id, rfl⟩
      · by_cases hid : e.entry.id = id
        · exact ⟨(e.entry, true), List.mem_append_right _ List.mem_cons_self, hid⟩
        · rw [UniqueIndex.find_insert_of_ne hid] at hrow
          obtain ⟨call, hcall, heq⟩ := h.called id row hrow
          exact ⟨call, List.mem_append_left _ hcall, heq⟩
      · exact iff_of_true rfl hnew
  | some row =>
      rw [Fits, hfind] at hfits
      obtain ⟨row', hfind', hknown, hnum⟩ :=
        @find_addPeerBlock_of_same _ e.now _ _ hfind hfits
      have hresult : (s.blkState.addPeerBlock e.now e.entry).2 = false := by
        rw [addPeerBlock_again hfind]
      refine ⟨fun call hcall => ?_, fun id row₁ hrow₁ => ?_, results_concat h.results ?_⟩
      · rw [List.mem_append, List.mem_singleton] at hcall
        rcases hcall with hcall | rfl
        · by_cases hid : call.1.id = e.entry.id
          · -- The number is the one of all calls with this id.
            obtain ⟨row₁, hfind₁, -, hnum₁⟩ := h.kept call hcall
            rw [hid, hfind] at hfind₁
            cases hfind₁
            rw [hid]
            exact ⟨row', hfind', fun _ => hknown, hnum.trans (hfits.symm.trans hnum₁)⟩
          · rw [find_addPeerBlock_of_ne hid]
            exact h.kept call hcall
        · exact ⟨row', hfind', fun _ => hknown, hnum⟩
      · by_cases hid : e.entry.id = id
        · exact ⟨_, List.mem_append_right _ List.mem_cons_self, hid⟩
        · rw [find_addPeerBlock_of_ne fun heq => hid heq.symm] at hrow₁
          obtain ⟨call, hcall, heq⟩ := h.called id row₁ hrow₁
          exact ⟨call, List.mem_append_left _ hcall, heq⟩
      · rw [hresult]
        obtain ⟨call, hcall, heq⟩ := h.called _ row hfind
        exact iff_of_false Bool.false_ne_true fun hnew => hnew call hcall heq

/-- A call that does not fit loses what the table has had, or what the call brings. -/
theorem Inv.fits (h : s.Inv) (hstep : s.step e = .ok s') (h' : s'.Remembers) : s.Fits e := by
  cases hstep
  have hcalled := h'.present (e.entry, (s.blkState.addPeerBlock e.now e.entry).2)
    (List.mem_append_right _ List.mem_cons_self)
  obtain ⟨row', hfind', -, hnum'⟩ := hcalled
  dsimp only at hfind' hnum'
  cases hfind : s.blkState.find e.entry.id with
  | none =>
      rw [Fits, hfind]
      intro row hrow heq
      rw [addPeerBlock_new hfind, UniqueIndex.insert_of_taken ⟨row, hrow, .inr heq⟩, hfind] at hfind'
      cases hfind'
  | some row =>
      rw [Fits, hfind]
      show row.blockNum = e.entry.blockNum
      have hnum := find_addPeerBlock_again hfind hfind'
      by_cases hzero : e.entry.blockNum = 0
      · by_contra hne
        rw [if_pos hzero] at hnum
        -- An earlier call has brought the number that is lost.
        obtain ⟨call, hcall, hid⟩ := h.called _ row hfind
        obtain ⟨row₁, hfind₁, -, hnum₁⟩ := h.kept call hcall
        rw [hid, hfind] at hfind₁
        cases hfind₁
        obtain ⟨row₂, hfind₂, -, hnum₂⟩ := h'.present call (List.mem_append_left _ hcall)
        dsimp only at hfind₂
        rw [hid, hfind'] at hfind₂
        cases hfind₂
        rw [hzero, hnum₁] at hne
        exact hne ((hnum₂ hne).symm.trans hnum)
      · rw [if_neg hzero] at hnum
        exact hnum.symm.trans (hnum' hzero)

/-- Over every sequence of calls, all that the peer is known to have is kept and the results are
right if and only if each new block has a number of its own and each block that is added again
has the number that it has been added with. -/
theorem remembers_iff_fits (es : List AddPeerBlock) :
    (∀ t ∈ Rollback.trace step {} es, Remembers t) ↔
      Rollback.Along step (fun t e _ => t.Fits e) {} es := by
  refine Rollback.trace_iff_along (fun _ h => Inv.remembers h)
    (fun _ _ _ h hstep hfits => h.step hstep hfits) (fun _ _ _ h hstep h' => h.fits hstep h') ?_
  refine ⟨fun _ h => (by cases h), fun _ _ h => (by cases h), fun i call h => ?_⟩
  rw [List.getElem?_nil] at h
  cases h

/-- Two blocks with the number 5, of two forks. -/
def forkedBlocks : List AddPeerBlock :=
  [⟨0, { id := 1, blockNum := 5, isKnown := true }⟩,
    ⟨0, { id := 2, blockNum := 5, isKnown := true }⟩]

/-- The second one is not kept. -/
theorem remembers_not_forked :
    (Rollback.run step {} forkedBlocks).blkState.find 2 = none ∧
      ¬ ∀ es : List AddPeerBlock, ∀ t ∈ Rollback.trace step {} es, Remembers t := by
  have hnone : (Rollback.run step {} forkedBlocks).blkState.find 2 = none := by decide
  refine ⟨hnone, fun h => ?_⟩
  obtain ⟨row, hfind, -⟩ := (h forkedBlocks _ (Rollback.run_mem_trace _ _)).present
    ({ id := 2, blockNum := 5, isKnown := true }, true) (by decide)
  cases hnone.symm.trans hfind

end PeerBlocks

end Xidata.Net
