import Xidata.Library.BinaryPlaces
import Xidata.Library.Rollback
import Xidata.Library.SignedWord

/-!
Fixed point numbers of 32, 64 and 128 bits: a signed word that is read with a fixed count of
binary places.  A change of the count goes through `assignHelper`, at a width that each
constructor chooses.  A shift of a negative number is one of its two's complement.
-/

namespace Xidata.Eosiolib

open BinaryPlaces SignedWord

structure FixedPoint (w Q : ℕ) where
  val : BitVec w
  deriving DecidableEq

abbrev FixedPoint128 (Q : ℕ) := FixedPoint 128 Q
abbrev FixedPoint64 (Q : ℕ) := FixedPoint 64 Q
abbrev FixedPoint32 (Q : ℕ) := FixedPoint 32 Q

namespace FixedPoint

/-- An assertion ends the transaction; a shift by a negative count, or by the width of the
word or more, has no meaning. -/
inductive Fault
  | undefinedShift
  | assertion (msg : String)
  deriving DecidableEq

abbrev Outcome := Except Fault

variable {w w' p Q QR : ℕ}

/-- The number that it stands for. -/
def value (a : FixedPoint w Q) : ℚ := scaled a.val.toInt Q

def shl (x : BitVec p) (count : ℤ) : Outcome (BitVec p) :=
  if 0 ≤ count ∧ count < p then .ok (x <<< count.toNat) else .error .undefinedShift

def shr (x : BitVec p) (count : ℤ) : Outcome (BitVec p) :=
  if 0 ≤ count ∧ count < p then .ok (x.sshiftRight count.toNat) else .error .undefinedShift

def assignHelper (rhsVal : BitVec p) (q qr : ℕ) : Outcome (BitVec p) :=
  if qr < q then shl rhsVal (q - qr) else shr rhsVal (qr - q)

/-- A constructor from another fixed point number, by `assignHelper` at the width `p`. -/
def convert (p w' Q : ℕ) (r : FixedPoint w QR) : Outcome (FixedPoint w' Q) := do
  let val ← assignHelper (r.val.signExtend p) Q QR
  pure ⟨val.signExtend w'⟩

def intPart (a : FixedPoint w Q) : Outcome (BitVec w) := shr a.val Q

def fracPart (a : FixedPoint w Q) : Outcome (BitVec w) :=
  if Q = 0 then pure 0 else shl a.val (32 - Q)

/-- `operator+` and `operator-`. -/
def combine (op : BitVec w → BitVec w → BitVec w) (a : FixedPoint w Q) (rhs : FixedPoint w QR) :
    Outcome (FixedPoint w (max Q QR)) :=
  -- of the same scale, no intermediate objects are made
  if Q = QR then pure ⟨op a.val rhs.val⟩
  else do
    let lhs : FixedPoint w (max Q QR) ← convert w w (max Q QR) a
    let rhs : FixedPoint w (max Q QR) ← convert w w (max Q QR) rhs
    pure ⟨op lhs.val rhs.val⟩

/-- `operator*`, with a result of twice the width. -/
def mul (a : FixedPoint w Q) (r : FixedPoint w QR) : FixedPoint (2 * w) (Q + QR) :=
  ⟨a.val.signExtend (2 * w) * r.val.signExtend (2 * w)⟩

/-- What `operator/` asserts the negation of. -/
def isZero (r : FixedPoint w Q) : Outcome Bool := do
  let intPart ← r.intPart
  if intPart = 0 then
    let fracPart ← r.fracPart
    pure (fracPart = 0)
  else pure false

/-- `operator/`, with a result of twice the width. -/
def div (a : FixedPoint w Q) (r : FixedPoint w QR) : Outcome (FixedPoint (2 * w) (Q + w - QR)) := do
  if ← r.isZero then throw (.assertion "divide by zero")
  pure ⟨(a.val.signExtend (2 * w) <<< w).sdiv (r.val.signExtend (2 * w))⟩

def beq (a : FixedPoint w Q) (r : FixedPoint w QR) : Bool := a.val = r.val
def gt (a : FixedPoint w Q) (r : FixedPoint w QR) : Bool := r.val.slt a.val
def lt (a : FixedPoint w Q) (r : FixedPoint w QR) : Bool := a.val.slt r.val

end FixedPoint

open FixedPoint

variable {QR : ℕ}

namespace FixedPoint128

def ofFixedPoint128 (Q : ℕ) (r : FixedPoint128 QR) : Outcome (FixedPoint128 Q) :=
  convert 128 128 Q r

def ofFixedPoint64 (Q : ℕ) (r : FixedPoint64 QR) : Outcome (FixedPoint128 Q) := convert 128 128 Q r
def ofFixedPoint32 (Q : ℕ) (r : FixedPoint32 QR) : Outcome (FixedPoint128 Q) := convert 128 128 Q r

end FixedPoint128

namespace FixedPoint64

variable {Q : ℕ}

def ofFixedPoint64 (Q : ℕ) (r : FixedPoint64 QR) : Outcome (FixedPoint64 Q) := convert 64 64 Q r

/-- The width of the helper is that of the source. -/
def ofFixedPoint32 (Q : ℕ) (r : FixedPoint32 QR) : Outcome (FixedPoint64 Q) := convert 32 64 Q r

def add (a : FixedPoint64 Q) (rhs : FixedPoint64 QR) : Outcome (FixedPoint64 (max Q QR)) :=
  combine (· + ·) a rhs

def sub (a : FixedPoint64 Q) (rhs : FixedPoint64 QR) : Outcome (FixedPoint64 (max Q QR)) :=
  combine (· - ·) a rhs

def mul (a : FixedPoint64 Q) (r : FixedPoint64 QR) : FixedPoint128 (Q + QR) := FixedPoint.mul a r

def div (a : FixedPoint64 Q) (r : FixedPoint64 QR) : Outcome (FixedPoint128 (Q + 64 - QR)) :=
  FixedPoint.div a r

end FixedPoint64

namespace FixedPoint32

variable {Q : ℕ}

def ofFixedPoint32 (Q : ℕ) (r : FixedPoint32 QR) : Outcome (FixedPoint32 Q) := convert 32 32 Q r

/-- The number is truncated. -/
def ofFixedPoint64 (Q : ℕ) (r : FixedPoint64 QR) : Outcome (FixedPoint32 Q) := convert 32 32 Q r

def add (a : FixedPoint32 Q) (rhs : FixedPoint32 QR) : Outcome (FixedPoint32 (max Q QR)) :=
  combine (· + ·) a rhs

def sub (a : FixedPoint32 Q) (rhs : FixedPoint32 QR) : Outcome (FixedPoint32 (max Q QR)) :=
  combine (· - ·) a rhs

def mul (a : FixedPoint32 Q) (r : FixedPoint32 QR) : FixedPoint64 (Q + QR) := FixedPoint.mul a r

def div (a : FixedPoint32 Q) (r : FixedPoint32 QR) : Outcome (FixedPoint64 (Q + 32 - QR)) :=
  FixedPoint.div a r

end FixedPoint32

namespace FixedPoint

/-! ### Changes of the scale -/

variable {w w' p Q QR : ℕ}

theorem shl_of_lt (x : BitVec p) {k : ℕ} (h : k < p) : shl x k = .ok (x <<< k) :=
  if_pos ⟨Int.natCast_nonneg k, Int.ofNat_lt.mpr h⟩

theorem shl_of_le (x : BitVec p) {k : ℕ} (h : p ≤ k) : shl x k = .error .undefinedShift :=
  if_neg fun hcount => by omega

theorem shr_of_lt (x : BitVec p) {k : ℕ} (h : k < p) : shr x k = .ok (x.sshiftRight k) :=
  if_pos ⟨Int.natCast_nonneg k, Int.ofNat_lt.mpr h⟩

theorem shr_of_le (x : BitVec p) {k : ℕ} (h : p ≤ k) : shr x k = .error .undefinedShift :=
  if_neg fun hcount => by omega

theorem assignHelper_of_lt (x : BitVec p) {q qr : ℕ} (h : qr < q) :
    assignHelper x q qr = shl x (q - qr : ℕ) := by
  rw [assignHelper, if_pos h, Int.ofNat_sub h.le]

theorem assignHelper_of_le (x : BitVec p) {q qr : ℕ} (h : q ≤ qr) :
    assignHelper x q qr = shr x (qr - q : ℕ) := by
  rw [assignHelper, if_neg (by omega), Int.ofNat_sub h]

/-- Every shift by less than the width is defined. -/
def CloseScales (p q qr : ℕ) : Prop := q - qr < p ∧ qr - q < p

instance (p q qr : ℕ) : Decidable (CloseScales p q qr) := inferInstanceAs (Decidable (_ ∧ _))

theorem assignHelper_of_not_close (x : BitVec p) {q qr : ℕ} (h : ¬ CloseScales p q qr) :
    assignHelper x q qr = .error .undefinedShift := by
  obtain hlt | hle := lt_or_ge qr q
  · rw [assignHelper_of_lt x hlt, shl_of_le x]
    unfold CloseScales at h
    omega
  · rw [assignHelper_of_le x hle, shr_of_le x]
    unfold CloseScales at h
    omega

/-- To more places the number is multiplied, and cut to the width; to fewer it is floored. -/
theorem assignHelper_of_close (x : BitVec p) {q qr : ℕ} (h : CloseScales p q qr) :
    ∃ val, assignHelper x q qr = .ok val ∧
      (qr ≤ q → val.toInt = (x.toInt * 2 ^ (q - qr)).bmod (2 ^ p)) ∧
      (q ≤ qr → val.toInt = x.toInt / 2 ^ (qr - q)) := by
  obtain hlt | hle := lt_or_ge qr q
  · refine ⟨x <<< (q - qr), ?_, fun _ => toInt_shiftLeft x _, fun hle => absurd hle hlt.not_ge⟩
    rw [assignHelper_of_lt x hlt, shl_of_lt x h.1]
  · refine ⟨x.sshiftRight (qr - q), ?_, fun hge => ?_, fun _ => toInt_sshiftRight x _⟩
    · rw [assignHelper_of_le x hle, shr_of_lt x h.2]
    · have hpos : 0 < p := lt_of_le_of_lt (Nat.zero_le _) h.1
      obtain rfl : q = qr := le_antisymm hle hge
      rw [toInt_sshiftRight, Nat.sub_self, pow_zero, Int.ediv_one, mul_one,
        bmod_of_fits hpos (fits_toInt x)]

theorem convert_of_not_close (r : FixedPoint w QR) (h : ¬ CloseScales p Q QR) :
    convert p w' Q r = .error .undefinedShift := by
  rw [convert, assignHelper_of_not_close _ h]
  rfl

theorem convert_of_close (hw : w ≤ p) (hp : p ≤ w') (r : FixedPoint w QR)
    (h : CloseScales p Q QR) :
    ∃ s : FixedPoint w' Q, convert p w' Q r = .ok s ∧ Fits p s.val.toInt ∧
      (QR ≤ Q → s.val.toInt = (r.val.toInt * 2 ^ (Q - QR)).bmod (2 ^ p)) ∧
      (Q ≤ QR → s.val.toInt = r.val.toInt / 2 ^ (QR - Q)) := by
  obtain ⟨val, hassign, hup, hdown⟩ := assignHelper_of_close (r.val.signExtend p) h
  have hval : (val.signExtend w').toInt = val.toInt := BitVec.toInt_signExtend_of_le hp
  rw [BitVec.toInt_signExtend_of_le hw] at hup hdown
  refine ⟨⟨val.signExtend w'⟩, ?_, hval ▸ fits_toInt val, hval ▸ hup, hval ▸ hdown⟩
  rw [convert, hassign]
  rfl

/-- A number that fits the target is kept exactly if it fits the width at which the helper
works, and the scales are close for that width. -/
theorem convert_exact_iff (hpos : 0 < p) (hw : w ≤ p) (hp : p ≤ w') (r : FixedPoint w QR)
    {n : ℤ} (hn : scaled n Q = r.value) :
    (∃ s, convert p w' Q r = .ok s ∧ s.value = r.value) ↔ CloseScales p Q QR ∧ Fits p n := by
  by_cases hclose : CloseScales p Q QR
  · obtain ⟨s, hconvert, hfits, hup, hdown⟩ := convert_of_close hw hp r hclose
    have hexact : (∃ s, convert p w' Q r = .ok s ∧ s.value = r.value) ↔ s.val.toInt = n := by
      rw [hconvert, ← hn]
      simp [value, scaled_inj]
    rw [hexact, and_iff_right hclose]
    obtain hle | hle := le_total QR Q
    · have hn' : n = r.val.toInt * 2 ^ (Q - QR) := by
        rwa [value, ← scaled_shift _ hle, scaled_inj] at hn
      rw [hup hle, ← hn', bmod_eq_self_iff hpos]
    · have hr : r.val.toInt = n * 2 ^ (QR - Q) := by
        rw [value, ← scaled_shift n hle, scaled_inj] at hn
        exact hn.symm
      have hs : s.val.toInt = n := by
        rw [hdown hle, hr, Int.mul_ediv_cancel _ (by positivity)]
      rw [iff_true_intro hs, true_iff, ← hs]
      exact hfits
  · rw [convert_of_not_close r hclose]
    simp [hclose]

end FixedPoint

end Xidata.Eosiolib
