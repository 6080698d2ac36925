import Xidata.Eosiolib.PackRoundTrip

/-!
Signed variable-length integers.  The sign is moved to the lowest bit, so that small numbers
of either sign are written in few bytes.
-/

namespace Xidata.Eosiolib

open ByteCode

structure SignedInt where
  value : Int32
  deriving DecidableEq

/-- The loop of `operator<<` for `signed_int`, with a bound on its passes. -/
def putSignedGroups {S : Type} [OutStream S] : ℕ → UInt32 → S → Result S
  | 0, _, ds => .ok ds
  | passes + 1, val, ds => do
    let b := val.toUInt8 &&& 0x7f
    let val := val >>> 7
    let b := b ||| (if 0 < val then 0x80 else 0)
    let ds ← OutStream.write ds [b]
    if val ≠ 0 then putSignedGroups passes val ds else pure ds

/-- The bits of a signed integer, the sign the lowest one. -/
def zigzag (value : Int32) : UInt32 := ((value <<< 1) ^^^ (value >>> 31)).toUInt32

/-- Five groups of seven bits hold every 32-bit value. -/
def putSignedInt {S : Type} [OutStream S] (ds : S) (v : SignedInt) : Result S :=
  putSignedGroups 5 (zigzag v.value) ds

/-- What `operator>>` makes of the bits. -/
def unzigzag (v : UInt32) : Int32 :=
  let value := (((v >>> 1) ^^^ (v >>> 31)) + (v &&& 0x01)).toInt32
  let value := if v &&& 0x01 ≠ 0 then value else -value
  Int32.neg value

/-- The loop of `operator>>` for `signed_int`, over the bytes left to read.
A shift is by its count modulo 32. -/
def getSignedGroups (v : UInt32) (shift : Int32) : Bytes → ℕ → Result (UInt32 × InStream)
  | [], _ => .error (.assertion .datastreamGet "get")
  | b :: rest, pos =>
      let v := v ||| (b &&& 0x7f).toUInt32 <<< shift.toUInt32
      if b &&& 0x80 ≠ 0 then getSignedGroups v (shift + 7) rest (pos + 1)
      else .ok (v, ⟨rest, pos + 1⟩)

def getSignedInt (ds : InStream) : Result (SignedInt × InStream) := do
  let v ← getSignedGroups 0 0 ds.rest ds.pos
  pure (⟨unzigzag v.1⟩, v.2)

/-! ### The bytes -/

theorem putSignedGroups_eq {S : Type} [OutStream S] (passes : ℕ) (val : UInt32) (ds : S) :
    putSignedGroups passes val ds = putGroups passes val.toUInt64 ds := by
  induction passes generalizing val ds with
  | zero => rfl
  | succ passes ih =>
      have hrest : val.toUInt64 >>> 7 = (val >>> 7).toUInt64 := by
        apply UInt64.toNat_inj.mp
        simp [UInt64.toNat_shiftRight]
      have hpos : (0 : UInt64) < (val >>> 7).toUInt64 ↔ (0 : UInt32) < val >>> 7 := by
        rw [UInt64.lt_iff_toNat_lt, UInt32.lt_iff_toNat_lt]
        simp
      have hne : (val >>> 7).toUInt64 ≠ 0 ↔ val >>> 7 ≠ 0 := by
        rw [Ne, Ne, ← UInt64.toNat_inj, ← UInt32.toNat_inj]
        simp
      have hlow : val.toUInt64.toUInt8 = val.toUInt8 := by simp
      rw [putSignedGroups, putGroups]
      simp only [hrest, hpos, hne, hlow, ih]

theorem putSignedInt_eq {S : Type} [OutStream S] (ds : S) (v : SignedInt) :
    putSignedInt ds v = writeAll ds ((varint 5 (zigzag v.value).toNat).map fun b => [b]) := by
  have hlt : (zigzag v.value).toUInt64.toNat < 128 ^ 5 := by
    rw [UInt32.toNat_toUInt64]
    exact lt_trans (zigzag v.value).toNat_lt (by decide)
  rw [putSignedInt, putSignedGroups_eq, putGroups_eq ds hlt, UInt32.toNat_toUInt64]

theorem shiftLeft_congr (x : UInt32) {y z : UInt32} (h : y.toNat % 32 = z.toNat % 32) :
    x <<< y = x <<< z := by
  apply UInt32.toNat_inj.mp
  rw [UInt32.toNat_shiftLeft, UInt32.toNat_shiftLeft, h]

/-- The groups are read as those of `unsigned_int` are. -/
theorem getSignedGroups_eq {w : UInt64} {shift : UInt8} {by_ : Int32} (v : UInt32) (bytes : Bytes)
    (pos : ℕ) (hv : w.toUInt32 = v) (hshift : by_.toUInt32.toNat % 32 = shift.toNat % 32) :
    getSignedGroups v by_ bytes pos =
      (fun r => (r.1.value, r.2)) <$> getGroups w shift bytes pos := by
  induction bytes generalizing v w shift by_ pos with
  | nil => rfl
  | cons b rest ih =>
      have hgroup : (w ||| ((b &&& 0x7f).toUInt32 <<< shift.toUInt32).toUInt64).toUInt32 =
          v ||| (b &&& 0x7f).toUInt32 <<< by_.toUInt32 := by
        have hcount : by_.toUInt32.toNat % 32 = shift.toUInt32.toNat % 32 := by
          rw [hshift, UInt8.toNat_toUInt32]
        rw [shiftLeft_congr _ hcount, UInt64.toUInt32_or, hv, UInt32.toUInt32_toUInt64]
      have hnext : (by_ + 7).toUInt32.toNat % 32 = (shift + 7).toNat % 32 := by
        rw [Int32.toUInt32_add, UInt32.toNat_add, UInt8.toNat_add]
        have h7 : (7 : Int32).toUInt32.toNat = 7 := rfl
        have h7' : (7 : UInt8).toNat = 7 := rfl
        omega
      rw [getSignedGroups, getGroups]
      split
      · exact ih _ (pos + 1) hgroup hnext
      · rw [← hgroup]
        rfl

theorem getSignedInt_varint (v : UInt32) (rest : Bytes) (pos : ℕ) :
    getSignedInt ⟨varint 5 v.toNat ++ rest, pos⟩ =
      .ok (⟨unzigzag v⟩, ⟨rest, pos + (varint 5 v.toNat).length⟩) := by
  have hlt := v.toNat_lt
  have hread : getGroups 0 0 (varint 5 v.toNat ++ rest) pos = _ :=
    getGroups_varint rest pos (lt_trans hlt (by decide)) (by decide) (by decide) (by decide)
      (by simpa using hlt)
  have hgroups : getSignedGroups 0 0 (varint 5 v.toNat ++ rest) pos =
      (fun r => (r.1.value, r.2)) <$> getGroups 0 0 (varint 5 v.toNat ++ rest) pos :=
    getSignedGroups_eq 0 _ pos rfl rfl
  rw [getSignedInt, hgroups, hread]
  simp

/-! ### The sign -/

/-- The arithmetic shift leaves only the sign. -/
theorem toUInt32_shiftRight_sign (v : Int32) :
    (v >>> 31).toUInt32 = if v.toUInt32.toNat < 2 ^ 31 then 0 else -1 := by
  have hbits : v.toUInt32.toNat = v.toBitVec.toNat := rfl
  have hshift : (v >>> 31).toUInt32.toBitVec = v.toBitVec.sshiftRight 31 := rfl
  have hlt := v.toBitVec.isLt
  apply UInt32.toBitVec_inj.mp
  apply BitVec.eq_of_toNat_eq
  rw [hbits, hshift, BitVec.toNat_sshiftRight, BitVec.msb_eq_decide]
  by_cases h : v.toBitVec.toNat < 2 ^ 31
  · rw [if_pos h, if_neg (by simpa using h)]
    simp [Nat.shiftRight_eq_div_pow]
    omega
  · rw [if_neg h, if_pos (by simpa using h)]
    simp [Nat.shiftRight_eq_div_pow]
    omega

/-- A number is doubled; a negative one is doubled without its sign, and made odd. -/
theorem toNat_zigzag (v : Int32) :
    (zigzag v).toNat = if v.toUInt32.toNat < 2 ^ 31 then 2 * v.toUInt32.toNat
      else 2 ^ 33 - 2 * v.toUInt32.toNat - 1 := by
  have hlt := v.toUInt32.toNat_lt
  have hshift : (v <<< 1).toUInt32 = v.toUInt32 <<< 1 := rfl
  have hdouble : (v.toUInt32 <<< 1).toNat = 2 * v.toUInt32.toNat % 2 ^ 32 := by
    rw [UInt32.toNat_shiftLeft, Nat.shiftLeft_eq, Nat.mul_comm]
    rfl
  rw [zigzag, Int32.toUInt32_xor, toUInt32_shiftRight_sign, hshift]
  split
  · rw [UInt32.xor_zero, hdouble]
    omega
  · rw [UInt32.xor_neg_one, UInt32.toNat_not, hdouble, UInt32.size]
    omega

/-- The integer that the bits above the lowest stand for, with the lowest one as the sign. -/
def fromHalf (v half : UInt32) : UInt32 := if v &&& 0x01 = 0 then half else -(half + 1)

theorem fromHalf_inj {v x y : UInt32} : fromHalf v x = fromHalf v y ↔ x = y := by
  unfold fromHalf
  split
  · exact Iff.rfl
  · rw [UInt32.neg_inj, UInt32.add_left_inj]

theorem low_bit (v : UInt32) : v &&& 0x01 = if v.toNat % 2 = 0 then 0 else 1 := by
  have hmod : (v &&& 0x01).toNat = v.toNat % 2 := by
    rw [UInt32.toNat_and]
    exact Nat.and_two_pow_sub_one_eq_mod _ 1
  apply UInt32.toNat_inj.mp
  rw [hmod]
  split
  · simpa
  · rw [UInt32.toNat_one]
    omega

theorem toUInt32_unzigzag (v : UInt32) :
    (unzigzag v).toUInt32 = fromHalf v ((v >>> 1) ^^^ (v >>> 31)) := by
  have hneg : ∀ x : Int32, (Int32.neg x).toUInt32 = -x.toUInt32 := fun x => rfl
  have hlow := low_bit v
  unfold unzigzag fromHalf
  by_cases h : v.toNat % 2 = 0
  · rw [if_pos h] at hlow
    simp [hlow, hneg]
  · rw [if_neg h] at hlow
    simp [hlow, hneg]
    rfl

theorem toUInt32_eq_fromHalf (v : Int32) :
    v.toUInt32 = fromHalf (zigzag v) (zigzag v >>> 1) := by
  have hlt := v.toUInt32.toNat_lt
  have hzigzag := toNat_zigzag v
  have hhalf : (zigzag v >>> 1).toNat = (zigzag v).toNat / 2 := by
    rw [UInt32.toNat_shiftRight]
    exact Nat.shiftRight_eq_div_pow _ 1
  apply UInt32.toNat_inj.mp
  rw [fromHalf, low_bit]
  split at hzigzag
  · rw [if_pos (by omega : (zigzag v).toNat % 2 = 0), if_pos rfl, hhalf, hzigzag]
    omega
  · rw [if_neg (by omega : ¬ (zigzag v).toNat % 2 = 0), if_neg (by decide), UInt32.toNat_neg,
      UInt32.toNat_add, hhalf, hzigzag, UInt32.size, UInt32.toNat_one]
    omega

theorem toUInt32_injective : Function.Injective Int32.toUInt32 := fun x y h => by
  cases x
  cases y
  exact congrArg Int32.ofUInt32 h

theorem toInt_eq_cond (v : Int32) :
    v.toInt = if v.toUInt32.toNat < 2 ^ 31 then (v.toUInt32.toNat : ℤ)
      else v.toUInt32.toNat - 2 ^ 32 := by
  have hbits : v.toUInt32.toNat = v.toBitVec.toNat := rfl
  rw [← Int32.toInt_toBitVec, BitVec.toInt_eq_toNat_cond, hbits]
  split <;> split <;> omega

/-- The bit that `operator>>` mixes in is the highest one, which should not count. -/
theorem unzigzag_zigzag_iff (v : Int32) :
    unzigzag (zigzag v) = v ↔ -2 ^ 30 ≤ v.toInt ∧ v.toInt < 2 ^ 30 := by
  have hlt := v.toUInt32.toNat_lt
  have hxor : ∀ x y : UInt32, x ^^^ y = x ↔ y = 0 := fun x y => by
    nth_rewrite 2 [← UInt32.xor_zero (a := x)]
    exact UInt32.xor_right_inj x
  have hbits : unzigzag (zigzag v) = v ↔ zigzag v >>> 31 = 0 := by
    rw [← toUInt32_injective.eq_iff, toUInt32_unzigzag, toUInt32_eq_fromHalf v, fromHalf_inj, hxor]
  have htop : zigzag v >>> 31 = 0 ↔ (zigzag v).toNat < 2 ^ 31 := by
    have hshift : (zigzag v >>> 31).toNat = (zigzag v).toNat / 2 ^ 31 := by
      rw [UInt32.toNat_shiftRight]
      exact Nat.shiftRight_eq_div_pow _ 31
    rw [← UInt32.toNat_inj, hshift]
    simp
  rw [hbits, htop, toNat_zigzag, toInt_eq_cond]
  split <;> omega

/-- A `signed_int` is read back as it was written in half of its range. -/
theorem signedInt_roundTrip_iff (v : SignedInt) :
    packWith putSignedInt v >>= unpackWith getSignedInt = .ok v ↔
      -2 ^ 30 ≤ v.value.toInt ∧ v.value.toInt < 2 ^ 30 := by
  have hpack := packWith_eq fun ds => putSignedInt_eq ds v
  have hread := getSignedInt_varint (zigzag v.value) [] 0
  rw [List.append_nil] at hread
  rw [hpack, Rollback.ok_bind, Serial.flatten_singletons, unpackWith, hread, Rollback.ok_bind,
    Rollback.pure_eq_ok, ← unzigzag_zigzag_iff v.value, SignedInt.mk.injEq]

/-- The least magnitude that is lost. -/
theorem signedInt_roundTrip_fails :
    packWith putSignedInt ⟨1073741824⟩ >>= unpackWith getSignedInt ≠ .ok ⟨1073741824⟩ := by
  decide

end Xidata.Eosiolib
