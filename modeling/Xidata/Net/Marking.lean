import Xidata.Net.InFlight
import Mathlib.Data.List.Induction

/-!
The block of a transaction while writes of it are in flight.  Its number is parked then, so
that the entry is not purged with its block, and is put back when nothing is in flight.
-/

namespace Xidata.Net

/-- What is done to an entry of `local_txns`. -/
inductive Mark
  | incrInFlight
  | decrInFlight
  | updateBlockNum (newBnum : UInt32)
  deriving DecidableEq

namespace Mark

/-- How many more writes are in flight. -/
def delta : Mark → ℤ
  | incrInFlight => 1
  | decrInFlight => -1
  | updateBlockNum _ => 0

def outstanding (es : List Mark) : ℤ := es.foldl (fun count e => count + e.delta) 0

/-- The number that is set last. -/
def lastSet (original : UInt32) (es : List Mark) : UInt32 :=
  es.foldl (fun num e => match e with | updateBlockNum newBnum => newBnum | _ => num) original

theorem outstanding_concat (es : List Mark) (e : Mark) :
    outstanding (es ++ [e]) = outstanding es + e.delta :=
  List.foldl_concat _ _ _ _

end Mark

namespace NodeTransactionState

open Mark

variable (nts : NodeTransactionState)

def mark (nts : NodeTransactionState) : Mark → NodeTransactionState
  | .incrInFlight => nts.incrInFlight
  | .decrInFlight => nts.decrInFlight
  | .updateBlockNum newBnum => nts.updateBlockNum newBnum

/-- An entry shows no block while something of it is in flight. -/
def Hides : Prop := nts.requests ≠ 0 → nts.blockNum = 0

/-- At no time more has been counted down than up, and what is in flight fits the counter. -/
def Counted (es : List Mark) : Prop :=
  ∀ before, before <+: es →
    0 ≤ outstanding before ∧ nts.requests.toNat + outstanding before < 2 ^ 16

instance : Decidable nts.Hides := inferInstanceAs (Decidable (_ → _))

instance (es : List Mark) : Decidable (nts.Counted es) :=
  decidable_of_iff (∀ before ∈ es.inits,
      0 ≤ outstanding before ∧ nts.requests.toNat + outstanding before < 2 ^ 16) <|
    forall_congr' fun before => imp_congr_left (List.mem_inits before es)

/-! ### One step -/

theorem expires_updateInFlight (incr : ℤ) :
    (nts.updateInFlight incr).expires = nts.expires + UInt32.ofInt (incr * 60) := by
  simp only [updateInFlight]
  split <;> split <;> rfl

theorem expires_updateBlockNum (num : UInt32) : (nts.updateBlockNum num).expires = nts.expires := by
  unfold updateBlockNum
  split <;> rfl

variable {nts}

theorem Hides.updateInFlight (h : nts.Hides) (incr : ℤ) : (nts.updateInFlight incr).Hides := by
  intro hafter
  rw [requests_updateInFlight] at hafter
  by_cases hnone : nts.requests = 0
  · rw [hnone, UInt16.zero_add] at hafter
    simp [NodeTransactionState.updateInFlight, hnone, hafter]
  · simp [NodeTransactionState.updateInFlight, hnone, hafter, h hnone]

theorem Hides.updateBlockNum (h : nts.Hides) (num : UInt32) : (nts.updateBlockNum num).Hides := by
  intro hafter
  rw [requests_updateBlockNum] at hafter
  rw [NodeTransactionState.updateBlockNum, if_pos hafter]
  exact h hafter

/-- What is known of an entry that `original` has become, with `out` writes more in flight and
`num` the block set last. -/
structure Marked (original : NodeTransactionState) (out : ℤ) (num : UInt32)
    (nts : NodeTransactionState) : Prop where
  requests : (nts.requests.toNat : ℤ) = original.requests.toNat + out
  hides : nts.Hides
  recorded : nts.recorded = num
  expires : nts.expires = original.expires + UInt32.ofInt (out * 60)

variable {original : NodeTransactionState} {out : ℤ} {num : UInt32}

theorem Marked.updateInFlight (h : Marked original out num nts) {incr : ℤ}
    (hincr : UInt16.ofInt incr ≠ 0)
    (hrequests : ((nts.updateInFlight incr).requests.toNat : ℤ) = nts.requests.toNat + incr) :
    Marked original (out + incr) num (nts.updateInFlight incr) where
  requests := by rw [hrequests, h.requests, add_assoc]
  hides := h.hides.updateInFlight incr
  recorded := (nts.recorded_updateInFlight incr hincr).trans h.recorded
  expires := by rw [expires_updateInFlight, h.expires, Int.add_mul, UInt32.ofInt_add,
    UInt32.add_assoc]

theorem Marked.mark (h : Marked original out num nts) (e : Mark)
    (hdown : 0 ≤ original.requests.toNat + (out + e.delta))
    (hup : original.requests.toNat + (out + e.delta) < 2 ^ 16) :
    Marked original (out + e.delta) (lastSet num [e]) (nts.mark e) := by
  have hrequests := h.requests
  cases e with
  | incrInFlight =>
      rw [delta] at hup
      have hcount : ((nts.updateInFlight 1).requests.toNat : ℤ) = nts.requests.toNat + 1 := by
        exact_mod_cast nts.requests_incrInFlight (by omega)
      exact h.updateInFlight (by decide) hcount
  | decrInFlight =>
      rw [delta] at hdown
      have hback : (nts.updateInFlight (-1)).requests.toNat + 1 = nts.requests.toNat :=
        nts.requests_decrInFlight (by omega)
      have hcount : ((nts.updateInFlight (-1)).requests.toNat : ℤ) = nts.requests.toNat + -1 := by
        omega
      exact h.updateInFlight (by decide) hcount
  | updateBlockNum newBnum =>
      exact
        { requests := by rw [NodeTransactionState.mark, requests_updateBlockNum, delta, add_zero,
            hrequests]
          hides := h.hides.updateBlockNum newBnum
          recorded := nts.recorded_updateBlockNum newBnum
          expires := by rw [NodeTransactionState.mark, expires_updateBlockNum, delta, add_zero,
            h.expires] }

/-! ### A run -/

theorem marked_foldl (hhides : original.Hides) {es : List Mark} (hes : original.Counted es) :
    Marked original (outstanding es) (lastSet original.recorded es) (es.foldl mark original) := by
  induction es using List.reverseRecOn with
  | nil =>
      exact ⟨(add_zero _).symm, hhides, rfl, (UInt32.add_zero _).symm⟩
  | append_singleton es e ih =>
      have hfirst : original.Counted es := fun before hbefore =>
        hes before (hbefore.trans (List.prefix_append es [e]))
      obtain ⟨hdown, hup⟩ := hes _ (List.prefix_refl _)
      rw [outstanding_concat] at hdown hup ⊢
      have hlast : lastSet original.recorded (es ++ [e]) =
          lastSet (lastSet original.recorded es) [e] := List.foldl_append
      rw [hlast, List.foldl_concat]
      exact (ih hfirst).mark e (by omega) (by omega)

/-- Over every run of counting up, counting down and setting the block, an entry of which
something is in flight shows no block and is not purged with one; when nothing is in flight,
it shows the block set last and expires when it did at first. -/
theorem blockNum_hidden_and_restored (original : NodeTransactionState) (hhides : original.Hides)
    (es : List Mark) (hes : original.Counted es) :
    let nts := es.foldl mark original
    (0 < nts.requests → nts.blockNum = 0 ∧
      ∀ (n : Relay) (now lib : UInt32), nts ∈ n.localTxns → now < nts.expires →
        nts ∈ (n.expireTxns now lib).localTxns) ∧
    (nts.requests = 0 →
      nts.blockNum = lastSet original.blockNum es ∧ nts.expires = original.expires) := by
  intro nts
  have hmarked : Marked original (outstanding es) (lastSet original.recorded es) nts :=
    marked_foldl hhides hes
  refine ⟨fun hpos => ?_, fun hnone => ?_⟩
  · have hzero : nts.blockNum = 0 := hmarked.hides (UInt16.pos_iff_ne_zero.mp hpos)
    refine ⟨hzero, fun n now lib hmem hexpires => ?_⟩
    simp [Relay.expireTxns, hmem, hexpires, hzero]
  · have hout := hmarked.requests
    obtain ⟨hdown, -⟩ := hes es (List.prefix_refl es)
    have hsum : (nts.requests.toNat : ℤ) = 0 := by simp [hnone]
    have hfirst : original.requests = 0 := UInt16.toNat_inj.mp (by simp; omega)
    have hback : outstanding es = 0 := by omega
    have hrecorded : original.recorded = original.blockNum := if_pos hfirst
    have hshown : nts.recorded = nts.blockNum := if_pos hnone
    refine ⟨?_, ?_⟩
    · rw [← hshown, hmarked.recorded, hrecorded]
    · rw [hmarked.expires, hback]
      exact UInt32.add_zero _

/-- The block is set while one of two writes is in flight. -/
def twoWrites : List Mark :=
  [.incrInFlight, .incrInFlight, .decrInFlight, .updateBlockNum 9]

theorem blockNum_hidden_and_restored_twoWrites :
    (twoWrites.foldl mark ⟨7, 3600, [1], 0, 0, 0⟩).blockNum = 0 ∧
      ((twoWrites ++ [Mark.decrInFlight]).foldl mark ⟨7, 3600, [1], 0, 0, 0⟩).blockNum = 9 :=
  ⟨((blockNum_hidden_and_restored ⟨7, 3600, [1], 0, 0, 0⟩ (by decide) twoWrites
      (by decide)).1 (by decide)).1,
    ((blockNum_hidden_and_restored ⟨7, 3600, [1], 0, 0, 0⟩ (by decide)
      (twoWrites ++ [Mark.decrInFlight]) (by decide)).2 (by decide)).1⟩

end NodeTransactionState

end Xidata.Net
