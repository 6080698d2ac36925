import Xidata.Eosiolib.Datastream

/-!
What is packed is unpacked to the same value, whatever follows it.

Every `operator<<` comes down to a list of writes, its `chunks`, that does not
depend on the stream.  So the counting stream and the buffer see the same
bytes, and reading needs to be compared with those bytes only.
-/

namespace Xidata.Eosiolib

open ByteCode

/-! ### A list of writes -/

section Chunks

variable {S : Type} [OutStream S]

def writeAll (ds : S) (chunks : List Bytes) : Result S := chunks.foldlM OutStream.write ds

@[simp] theorem writeAll_nil (ds : S) : writeAll ds [] = .ok ds := rfl

@[simp] theorem writeAll_singleton (ds : S) (d : Bytes) :
    writeAll ds [d] = OutStream.write ds d := by
  rw [writeAll, List.foldlM_cons]
  exact bind_pure _

theorem writeAll_append (ds : S) (cs cs' : List Bytes) :
    writeAll ds (cs ++ cs') = writeAll ds cs >>= fun ds => writeAll ds cs' := by
  rw [writeAll, List.foldlM_append]
  rfl

theorem foldlM_writeAll {ι : Type} (f : ι → List Bytes) (ds : S) (l : List ι) :
    l.foldlM (fun ds i => writeAll ds (f i)) ds = writeAll ds (l.flatMap f) := by
  induction l generalizing ds with
  | nil => rfl
  | cons i l ih =>
      rw [List.foldlM_cons, List.flatMap_cons, writeAll_append]
      exact congrArg _ (funext fun ds => ih ds)

end Chunks

theorem writeAll_size (n : ℕ) (cs : List Bytes) :
    writeAll (SizeStream.mk n) cs = .ok ⟨n + cs.flatten.length⟩ := by
  induction cs generalizing n with
  | nil => rfl
  | cons d cs ih =>
      have hrest : writeAll (SizeStream.mk (n + d.length)) cs = _ := ih (n + d.length)
      rw [List.flatten_cons, List.length_append, ← Nat.add_assoc, ← hrest]
      rfl

theorem bmod_le_self (n : ℕ) : (n : ℤ).bmod 4294967296 ≤ n := by
  rw [Int.bmod]
  split <;> omega

/-- Where there is room, what is written replaces what was there. -/
theorem write_buffer {pre room post d : Bytes} (h : room.length = d.length) :
    OutStream.write (BufferStream.mk (pre ++ (room ++ post)) pre.length) d =
      .ok ⟨(pre ++ d) ++ post, (pre ++ d).length⟩ := by
  have hfits := bmod_le_self d.length
  have hdrop : (pre ++ (room ++ post)).drop (pre.length + d.length) = post := by
    rw [← h, ← List.append_assoc, ← List.length_append, List.drop_left]
  simp only [OutStream.write, Rollback.bind_eq_ok, eosioAssert_eq_ok, Rollback.pure_eq_ok,
    exists_const, List.take_left, hdrop, List.length_append, and_true]
  omega

theorem writeAll_buffer {pre room post : Bytes} {cs : List Bytes}
    (h : room.length = cs.flatten.length) :
    writeAll (BufferStream.mk (pre ++ (room ++ post)) pre.length) cs =
      .ok ⟨pre ++ (cs.flatten ++ post), pre.length + cs.flatten.length⟩ := by
  induction cs generalizing pre room with
  | nil =>
      rw [List.flatten_nil, List.length_nil, List.length_eq_zero_iff] at h
      rw [h]
      rfl
  | cons d cs ih =>
      rw [List.flatten_cons, List.length_append] at h
      obtain ⟨r, room, rfl, hr⟩ : ∃ r room', room = r ++ room' ∧ r.length = d.length :=
        ⟨room.take d.length, room.drop d.length, (List.take_append_drop _ _).symm,
          List.length_take_of_le (by omega)⟩
      rw [List.length_append] at h
      have hrest : writeAll (BufferStream.mk ((pre ++ d) ++ (room ++ post)) (pre ++ d).length) cs =
          _ := ih (by omega)
      rw [writeAll] at hrest ⊢
      rw [List.foldlM_cons, List.append_assoc, write_buffer hr, Rollback.ok_bind, hrest]
      simp [Nat.add_assoc]

/-- What is packed are the bytes of the writes. -/
theorem packWith_eq {α : Type} {write : {S : Type} → [OutStream S] → S → α → Result S} {v : α}
    {cs : List Bytes} (h : ∀ {S : Type} [OutStream S] (ds : S), write ds v = writeAll ds cs) :
    packWith write v = .ok cs.flatten := by
  have hfill : writeAll (BufferStream.mk ([] ++ (List.replicate cs.flatten.length 0 ++ []))
      ([] : Bytes).length) cs = _ := writeAll_buffer List.length_replicate
  simp only [List.nil_append, List.append_nil, List.length_nil] at hfill
  rw [packWith, h, writeAll_size, Rollback.ok_bind, h, Nat.zero_add, hfill]
  rfl

/-! ### Variable-length integers -/

theorem toNat_shiftRight_seven (x : UInt64) : (x >>> 7).toNat = x.toNat / 128 := by
  rw [UInt64.toNat_shiftRight]
  simp [Nat.shiftRight_eq_div_pow]

theorem toNat_low_seven (b : UInt8) : (b &&& 0x7f).toNat = b.toNat % 128 := by
  rw [UInt8.toNat_and]
  exact Nat.and_two_pow_sub_one_eq_mod b.toNat 7

theorem or_high_bit {b : UInt8} (h : b.toNat < 128) : (b ||| 0x80).toNat = b.toNat + 128 := by
  have hor : 2 ^ 7 * 1 + b.toNat = 2 ^ 7 * 1 ||| b.toNat := Nat.two_pow_add_eq_or_of_lt h 1
  rw [UInt8.toNat_or, Nat.or_comm, show (0x80 : UInt8).toNat = 2 ^ 7 * 1 from rfl, ← hor]
  omega

theorem and_high_bit (b : UInt8) : b &&& 0x80 = 0 ↔ b.toNat < 128 := by
  have hall : ∀ i : Fin 256, UInt8.ofNat i &&& 0x80 = 0 ↔ (UInt8.ofNat i).toNat < 128 := by
    decide +kernel
  simpa using hall ⟨b.toNat, b.toNat_lt⟩

/-- The byte that is written for the lowest seven bits of `val`. -/
theorem group_byte (val : UInt64) :
    ((val.toUInt8 &&& 0x7f) ||| if (0 : UInt64) < val >>> 7 then 0x80 else 0) =
      if val.toNat / 128 = 0 then val.toNat.toUInt8 else (val.toNat % 128 + 128).toUInt8 := by
  have hlow : (val.toUInt8 &&& 0x7f).toNat = val.toNat % 128 := by
    rw [toNat_low_seven, UInt64.toNat_toUInt8]
    omega
  have hpos : (0 : UInt64) < val >>> 7 ↔ val.toNat / 128 ≠ 0 := by
    rw [UInt64.lt_iff_toNat_lt, toNat_shiftRight_seven]
    exact Nat.pos_iff_ne_zero
  apply UInt8.toNat_inj.mp
  by_cases h : val.toNat / 128 = 0
  · rw [if_neg (hpos.not.mpr (not_not.mpr h)), if_pos h, UInt8.or_zero, hlow]
    simp
    omega
  · rw [if_pos (hpos.mpr h), if_neg h, or_high_bit (by omega), hlow]
    simp
    omega

theorem putGroups_eq {S : Type} [OutStream S] {passes : ℕ} {val : UInt64} (ds : S)
    (h : val.toNat < 128 ^ passes) :
    putGroups passes val ds = writeAll ds ((varint passes val.toNat).map fun b => [b]) := by
  induction passes generalizing val ds with
  | zero => rfl
  | succ passes ih =>
      have hrest : (val >>> 7).toNat < 128 ^ passes := by
        rw [toNat_shiftRight_seven]
        exact div_lt_of_lt_pow_succ h
      have hzero : val >>> 7 ≠ (0 : UInt64) ↔ ¬ val.toNat / 128 = 0 := by
        rw [← toNat_shiftRight_seven]
        exact not_congr (UInt64.toNat_inj (b := 0)).symm
      rw [putGroups, varint, group_byte]
      by_cases hn : val.toNat / 128 = 0
      · simp only [hzero, hn, not_true_eq_false, if_true, if_false, List.map_cons, List.map_nil,
          writeAll_singleton]
        exact bind_pure _
      · simp only [hzero, hn, not_false_eq_true, if_true, if_false, List.map_cons]
        refine congrArg _ (funext fun ds => ?_)
        rw [ih ds hrest, toNat_shiftRight_seven]
        rfl

theorem toNat_or_shift {v : UInt64} {g : UInt32} {shift : UInt8} (hv : v.toNat < 2 ^ shift.toNat)
    (hshift : shift.toNat < 32) (hg : g.toNat * 2 ^ shift.toNat < 2 ^ 32) :
    (v ||| (g <<< shift.toUInt32).toUInt64).toNat = v.toNat + g.toNat * 2 ^ shift.toNat := by
  have hcount : shift.toUInt32.toNat % 32 = shift.toNat := by
    rw [UInt8.toNat_toUInt32]
    omega
  rw [UInt64.toNat_or, UInt32.toNat_toUInt64, UInt32.toNat_shiftLeft, hcount,
    Nat.shiftLeft_eq, Nat.mod_eq_of_lt hg, Nat.or_comm, ← Nat.shiftLeft_eq,
    ← Nat.shiftLeft_add_eq_or_of_lt hv, Nat.add_comm]

/-- The bits of a byte that count are added above those read before it. -/
theorem toNat_or_group {v : UInt64} {b shift : UInt8} (hv : v.toNat < 2 ^ shift.toNat)
    (hshift : shift.toNat < 32) (hb : b.toNat % 128 * 2 ^ shift.toNat < 2 ^ 32) :
    (v ||| ((b &&& 0x7f).toUInt32 <<< shift.toUInt32).toUInt64).toNat =
      v.toNat + b.toNat % 128 * 2 ^ shift.toNat := by
  have hg : (b &&& 0x7f).toUInt32.toNat = b.toNat % 128 := by
    rw [UInt8.toNat_toUInt32, toNat_low_seven]
  rw [← hg] at hb ⊢
  exact toNat_or_shift hv hshift hb

theorem getGroups_last {v : UInt64} {b shift : UInt8} (rest : Bytes) (pos : ℕ)
    (hb : b.toNat < 128) (hv : v.toNat < 2 ^ shift.toNat) (hshift : shift.toNat < 32)
    (hfits : b.toNat * 2 ^ shift.toNat < 2 ^ 32) :
    getGroups v shift (b :: rest) pos =
      .ok (⟨(v.toNat + b.toNat * 2 ^ shift.toNat).toUInt32⟩, ⟨rest, pos + 1⟩) := by
  have hlow : b.toNat % 128 = b.toNat := Nat.mod_eq_of_lt hb
  have hsum := toNat_or_group (b := b) hv hshift (by rwa [hlow])
  have hvalue : ∀ x : UInt64, x.toUInt32 = x.toNat.toUInt32 := fun x => by
    apply UInt32.toNat_inj.mp
    simp
  rw [getGroups, if_neg (not_not.mpr ((and_high_bit b).mpr hb)), hvalue, hsum, hlow]

theorem getGroups_more {v : UInt64} {b shift : UInt8} (rest : Bytes) (pos : ℕ)
    (hb : 128 ≤ b.toNat) :
    getGroups v shift (b :: rest) pos =
      getGroups (v ||| ((b &&& 0x7f).toUInt32 <<< shift.toUInt32).toUInt64) (shift + 7) rest
        (pos + 1) := by
  have hhigh : b &&& 0x80 ≠ 0 := fun h => absurd ((and_high_bit b).mp h) (not_lt.mpr hb)
  rw [getGroups, if_pos hhigh]

/-- The loop adds the groups it reads to what it has so far. -/
theorem getGroups_varint {passes n : ℕ} {v : UInt64} {shift : UInt8} (rest : Bytes) (pos : ℕ)
    (hn : n < 128 ^ passes) (hpasses : 0 < passes) (hv : v.toNat < 2 ^ shift.toNat)
    (hshift : shift.toNat < 32) (hfits : n * 2 ^ shift.toNat < 2 ^ 32) :
    getGroups v shift (varint passes n ++ rest) pos =
      .ok (⟨(v.toNat + n * 2 ^ shift.toNat).toUInt32⟩,
        ⟨rest, pos + (varint passes n).length⟩) := by
  induction passes generalizing n v shift pos with
  | zero => exact absurd hpasses (lt_irrefl 0)
  | succ passes ih =>
      have hdiv : n / 128 * 128 + n % 128 = n := Nat.div_add_mod' n 128
      rw [varint]
      split
      · have hb : n.toUInt8.toNat = n := by
          simp
          omega
        have hlast := getGroups_last (b := n.toUInt8) rest pos (by omega) hv hshift (by rwa [hb])
        rw [hb] at hlast
        exact hlast
      · rename_i hmore
        have hb : (n % 128 + 128).toUInt8.toNat = n % 128 + 128 := by
          simp
          omega
        have hgroup : (n % 128 + 128).toUInt8.toNat % 128 = n % 128 := by omega
        have hlow : n % 128 * 2 ^ shift.toNat < 2 ^ 32 :=
          lt_of_le_of_lt (Nat.mul_le_mul_right _ (Nat.mod_le n 128)) hfits
        have hsum := toNat_or_group hv hshift (hgroup ▸ hlow)
        have hpow : 2 ^ (shift.toNat + 7) = 2 ^ shift.toNat * 128 := pow_add 2 shift.toNat 7
        have hrest : n / 128 * 2 ^ (shift.toNat + 7) + n % 128 * 2 ^ shift.toNat =
            n * 2 ^ shift.toNat := by
          rw [hpow, Nat.mul_comm (2 ^ shift.toNat), ← Nat.mul_assoc, ← Nat.add_mul, hdiv]
        -- the groups that follow are not all zero, so they start below bit 32
        have hnext : 2 ^ (shift.toNat + 7) < 2 ^ 32 := by
          have hone : 1 * 2 ^ (shift.toNat + 7) ≤ n / 128 * 2 ^ (shift.toNat + 7) :=
            Nat.mul_le_mul_right _ (Nat.pos_of_ne_zero hmore)
          omega
        have hlt : shift.toNat + 7 < 32 := (Nat.pow_lt_pow_iff_right (by decide)).mp hnext
        have hshift7 : (shift + 7).toNat = shift.toNat + 7 := by
          rw [UInt8.toNat_add, show (7 : UInt8).toNat = 7 from rfl, Nat.mod_eq_of_lt (by omega)]
        have hlow' : n % 128 * 2 ^ shift.toNat ≤ 127 * 2 ^ shift.toNat :=
          Nat.mul_le_mul_right _ (by omega)
        have hbelow : n / 128 < 128 ^ passes := div_lt_of_lt_pow_succ hn
        have hpos : 0 < passes := by
          cases passes with
          | zero =>
              rw [pow_zero] at hbelow
              omega
          | succ passes => exact Nat.succ_pos passes
        rw [List.cons_append, getGroups_more _ _ (by omega),
          ih (pos + 1) hbelow hpos (by rw [hshift7, hsum, hgroup]; omega) (by omega)
            (by rw [hshift7]; omega),
          hshift7, hsum, hgroup, Nat.add_assoc, Nat.add_comm (n % 128 * _), hrest,
          List.length_cons, Nat.add_assoc pos, Nat.add_comm 1]

theorem putUnsignedInt_eq {S : Type} [OutStream S] (ds : S) (v : UnsignedInt) :
    putUnsignedInt ds v = writeAll ds ((varint 10 v.value.toNat).map fun b => [b]) := by
  have hlt : v.value.toUInt64.toNat < 128 ^ 10 := by
    rw [UInt32.toNat_toUInt64]
    exact lt_trans v.value.toNat_lt (by decide)
  rw [putUnsignedInt, putGroups_eq ds hlt, UInt32.toNat_toUInt64]

theorem getUnsignedInt_varint (v : UnsignedInt) (rest : Bytes) (pos : ℕ) :
    getUnsignedInt ⟨varint 10 v.value.toNat ++ rest, pos⟩ =
      .ok (v, ⟨rest, pos + (varint 10 v.value.toNat).length⟩) := by
  have hlt := v.value.toNat_lt
  have hread : getGroups 0 0 (varint 10 v.value.toNat ++ rest) pos = _ :=
    getGroups_varint rest pos (lt_trans hlt (by decide)) (by decide) (by decide) (by decide)
      (by simpa using hlt)
  rw [getUnsignedInt, hread]
  simp

/-! ### What the operators write -/

def sizeChunks (n : ℕ) : List Bytes := (varint 10 n.toUInt32.toNat).map fun b => [b]

theorem putSize_eq {S : Type} [OutStream S] (ds : S) (n : ℕ) :
    putUnsignedInt ds ⟨n.toUInt32⟩ = writeAll ds (sizeChunks n) :=
  putUnsignedInt_eq ds ⟨n.toUInt32⟩

namespace Serial

/-- The writes of `operator<<`, which are the same on every stream. -/
def chunks : {α : Type} → Serial α → α → List Bytes
  | _, .primitive p, v => [p.toBytes v]
  | _, .unsignedInt, v => (varint 10 v.value.toNat).map fun b => [b]
  | _, .checksum _, v => [v.toList]
  | _, .string, v => sizeChunks v.val.length ++ if v.val.length ≠ 0 then [v.val] else []
  | _, .bytes, v => sizeChunks v.val.length ++ [v.val]
  | _, .vector s, v => sizeChunks v.val.length ++ v.val.flatMap (chunks s)
  | _, .array _ s, v => v.toList.flatMap (chunks s)
  | _, .cArray n _ s, v => sizeChunks n ++
      match s.primitive? with
      | some p => [v.toList.flatMap p.toBytes]
      | none => v.toList.flatMap (chunks s)
  | _, .nil, _ => []
  | _, .cons s t, v => chunks s v.1 ++ chunks t v.2
  | _, .set _ s, v => sizeChunks v.elements.length ++ v.elements.flatMap (chunks s)
  | _, .struct fields s, v => chunks s (fields v)

theorem write_eq {S : Type} [OutStream S] {α : Type} (s : Serial α) (ds : S) (v : α) :
    s.write ds v = writeAll ds (s.chunks v) := by
  induction s generalizing ds with
  | primitive p => exact (writeAll_singleton ds _).symm
  | unsignedInt => exact putUnsignedInt_eq ds v
  | checksum n => exact (writeAll_singleton ds _).symm
  | string =>
      rw [write, chunks, putSize_eq, writeAll_append]
      refine congrArg _ (funext fun ds => ?_)
      split
      · exact (writeAll_singleton ds _).symm
      · rfl
  | bytes =>
      rw [write, chunks, putSize_eq, writeAll_append]
      exact congrArg _ (funext fun ds => (writeAll_singleton ds _).symm)
  | vector s ih =>
      rw [write, chunks, putSize_eq, writeAll_append]
      simp only [ih, foldlM_writeAll]
  | array n s ih =>
      rw [write, chunks]
      simp only [ih, foldlM_writeAll]
  | cArray n hn s ih =>
      rw [write, chunks, putSize_eq, writeAll_append]
      refine congrArg _ (funext fun ds => ?_)
      cases s.primitive? with
      | some p => exact (writeAll_singleton ds _).symm
      | none => simp only [ih, foldlM_writeAll]
  | nil => rfl
  | cons s t ihs iht =>
      rw [write, chunks, writeAll_append]
      simp only [ihs, iht]
  | set cmp s ih =>
      rw [write, chunks, putSize_eq, writeAll_append]
      simp only [ih, foldlM_writeAll]
  | struct fields s ih => exact ih ds (fields v)

/-- The bytes of a value. -/
def encode {α : Type} (s : Serial α) (v : α) : Bytes := (s.chunks v).flatten

theorem packSize_eq {α : Type} (s : Serial α) (v : α) :
    s.packSize v = .ok (s.encode v).length := by
  rw [packSize, write_eq, writeAll_size, encode]
  exact congrArg Except.ok (Nat.zero_add _)

/-- The counting stream sizes the buffer that the other one fills. -/
theorem write_buffer_eq {α : Type} (s : Serial α) (v : α) :
    s.write (BufferStream.mk (List.replicate (s.encode v).length 0) 0) v =
      .ok ⟨s.encode v, (s.encode v).length⟩ := by
  have hfill : writeAll (BufferStream.mk ([] ++ (List.replicate (s.encode v).length 0 ++ []))
      ([] : Bytes).length) (s.chunks v) = _ := writeAll_buffer List.length_replicate
  rw [write_eq]
  simpa [encode] using hfill

theorem pack_eq {α : Type} (s : Serial α) (v : α) : s.pack v = .ok (s.encode v) := by
  rw [pack, packSize_eq, Rollback.ok_bind, write_buffer_eq]
  rfl

/-! ### What they read back -/

/-- `readOne` reads a value `v` off its bytes `d`, and nothing of what follows. -/
def Reads {α : Type} (readOne : InStream → Result (α × InStream)) (v : α) (d : Bytes) : Prop :=
  ∀ rest pos, readOne ⟨d ++ rest, pos⟩ = .ok (v, ⟨rest, pos + d.length⟩)

theorem flatten_singletons (d : Bytes) : (d.map fun b => [b]).flatten = d := by
  induction d with
  | nil => rfl
  | cons b d ih => rw [List.map_cons, List.flatten_cons, ih, List.singleton_append]

theorem reads_bytes {n : ℕ} (v : List.Vector UInt8 n) : Reads (fun ds => ds.read n) v v.toList := by
  intro rest pos
  have hlen : v.toList.length = n := v.toList_length
  have hle : n ≤ (v.toList ++ rest).length := by
    rw [List.length_append, hlen]
    exact Nat.le_add_right _ _
  have htake : (v.toList ++ rest).take n = v.toList := List.take_left' hlen
  have hdrop : (v.toList ++ rest).drop n = rest := List.drop_left' hlen
  simp only [InStream.read, dif_pos hle, htake, hdrop, hlen]
  rfl

/-- The size read back is the size written, for a container of the library. -/
theorem reads_size {n : ℕ} : Reads getUnsignedInt ⟨n.toUInt32⟩ (sizeChunks n).flatten := by
  intro rest pos
  rw [sizeChunks, flatten_singletons]
  exact getUnsignedInt_varint ⟨n.toUInt32⟩ rest pos

theorem toNat_size {n : ℕ} (h : n < 4294967296) : n = n.toUInt32.toNat := by
  simpa using (Nat.mod_eq_of_lt h).symm

theorem reads_many {α : Type} {readOne : InStream → Result (α × InStream)} {enc : α → Bytes}
    (h : ∀ a, Reads readOne a (enc a)) {n : ℕ} (v : List.Vector α n) :
    Reads (fun ds => ds.readMany readOne n) v (v.toList.flatMap enc) := by
  induction v with
  | nil => exact fun rest pos => rfl
  | @cons n a v ih =>
      intro rest pos
      have hhead := h a (v.toList.flatMap enc ++ rest) pos
      have htail := ih rest (pos + (enc a).length)
      rw [List.Vector.toList_cons, List.flatMap_cons, List.append_assoc, List.length_append,
        ← Nat.add_assoc]
      simp only [InStream.readMany, hhead, Rollback.ok_bind, htail]
      rfl

/-- Reading on after a first part. -/
theorem Reads.bind {α β : Type} {first : InStream → Result (α × InStream)} {a : α} {d : Bytes}
    (ha : Reads first a d) (next : α → InStream → Result (β × InStream)) {b : β} {d' : Bytes}
    (hb : Reads (next a) b d') :
    Reads (fun ds => first ds >>= fun r => next r.1 r.2) b (d ++ d') := by
  intro rest pos
  have hfirst := ha (d' ++ rest) pos
  have hnext := hb rest (pos + d.length)
  rw [List.append_assoc, List.length_append, ← Nat.add_assoc]
  simp only [hfirst, Rollback.ok_bind, hnext]

/-- A value made from what was read. -/
theorem Reads.map {α β : Type} {readOne : InStream → Result (α × InStream)} {a : α} {d : Bytes}
    (h : Reads readOne a d) (f : α → β) :
    Reads (fun ds => readOne ds >>= fun r => pure (f r.1, r.2)) (f a) d := by
  intro rest pos
  simp only [h rest pos, Rollback.ok_bind]
  rfl

theorem foldl_emplace {α : Type} {cmp : Comparator α} {s l : List α}
    (h : (s ++ l).Pairwise fun a b => cmp.less a b) :
    l.foldl (fun s a => cmp.emplace a s) s = s ++ l := by
  induction l generalizing s with
  | nil => exact (List.append_nil s).symm
  | cons a l ih =>
      have hlast : ∀ b ∈ s, cmp.less b a := fun b hb =>
        (List.pairwise_append.mp h).2.2 b hb a List.mem_cons_self
      rw [List.foldl_cons, cmp.emplace_of_forall_less hlast, ih (by simpa using h)]
      simp

theorem ofVector_elements {α : Type} {cmp : Comparator α} (v : StdSet cmp) :
    StdSet.ofVector cmp ⟨v.elements, v.length_lt⟩ = v := by
  have helements : (StdSet.ofVector cmp ⟨v.elements, v.length_lt⟩).elements = v.elements :=
    foldl_emplace (s := []) v.sorted
  cases v
  simpa [StdSet.ofVector] using helements

theorem ofMemory_eq {α : Type} (p : Primitive α) {n : ℕ} (v : List.Vector α n) :
    ofMemory p n (v.toList.flatMap p.toBytes) = v := by
  induction v with
  | nil => rfl
  | @cons n a v ih =>
      have hlen := p.length_toBytes a
      rw [List.Vector.toList_cons, ofMemory, List.flatMap_cons, List.take_left' hlen,
        List.drop_left' hlen, ih, p.ofBytes_toBytes]

theorem length_flatMap_toBytes {α : Type} (p : Primitive α) (l : List α) :
    (l.flatMap p.toBytes).length = l.length * p.width := by
  induction l with
  | nil => exact (Nat.zero_mul _).symm
  | cons a l ih =>
      rw [List.flatMap_cons, List.length_append, ih, p.length_toBytes, List.length_cons,
        Nat.add_mul, Nat.one_mul, Nat.add_comm]

/-- A container's elements, behind its size. -/
theorem reads_sized {α β : Type} {l : List α} (hl : l.length < 4294967296) (f : StdVector α → β)
    (next : (n : ℕ) → InStream → Result (List.Vector α n × InStream)) {d : Bytes}
    (h : Reads (next l.length.toUInt32.toNat) ⟨l, toNat_size hl⟩ d) :
    Reads (fun ds => getUnsignedInt ds >>= fun size => next size.1.value.toNat size.2 >>= fun v =>
      pure (f (.ofSize size.1 v.1), v.2)) (f ⟨l, hl⟩) ((sizeChunks l.length).flatten ++ d) :=
  reads_size.bind (fun size ds => next size.value.toNat ds >>= fun v =>
    pure (f (.ofSize size v.1), v.2)) (h.map fun v => f (.ofSize ⟨l.length.toUInt32⟩ v))

theorem flatten_flatMap {ι : Type} (f : ι → List Bytes) (l : List ι) :
    (l.flatMap f).flatten = l.flatMap fun i => (f i).flatten := by
  induction l with
  | nil => rfl
  | cons i l ih => rw [List.flatMap_cons, List.flatten_append, ih, List.flatMap_cons]

/-- Every value is read back from its bytes, whatever follows them. -/
theorem reads_encode {α : Type} (s : Serial α) (v : α) : Reads s.read v (s.encode v) := by
  induction s with
  | primitive p =>
      have hread := reads_bytes ⟨p.toBytes v, p.length_toBytes v⟩
      have hvalue := hread.map fun d => p.ofBytes d.toList
      rw [encode, chunks, List.flatten_singleton]
      simp only [List.Vector.toList_mk, p.ofBytes_toBytes] at hvalue
      exact hvalue
  | unsignedInt =>
      rw [encode, chunks, flatten_singletons]
      exact fun rest pos => getUnsignedInt_varint v rest pos
  | checksum n =>
      rw [encode, chunks, List.flatten_singleton]
      exact reads_bytes v
  | string =>
      have hwritten : (if v.val.length ≠ 0 then [v.val] else []).flatten = v.val := by
        split
        · exact List.flatten_singleton
        · rename_i h
          exact (List.length_eq_zero_iff.mp (not_not.mp h)).symm
      rw [encode, chunks, List.flatten_append, hwritten]
      exact reads_sized v.property id (fun n ds => ds.read n)
        (reads_bytes ⟨v.val, toNat_size v.property⟩)
  | bytes =>
      rw [encode, chunks, List.flatten_append, List.flatten_singleton]
      exact reads_sized v.property id (fun n ds => ds.read n)
        (reads_bytes ⟨v.val, toNat_size v.property⟩)
  | vector s ih =>
      rw [encode, chunks, List.flatten_append, flatten_flatMap]
      exact reads_sized v.property id (fun n ds => ds.readMany s.read n)
        (reads_many ih ⟨v.val, toNat_size v.property⟩)
  | array n s ih =>
      rw [encode, chunks, flatten_flatMap]
      exact reads_many ih v
  | cArray n hn s ih =>
      have hassert : eosioAssert .arrayRead (n = (UnsignedInt.mk n.toUInt32).value.toNat)
          "T[] size and unpacked size don't match" = .ok () := eosioAssert_eq_ok.mpr (toNat_size hn)
      rw [encode, chunks, List.flatten_append]
      refine reads_size.bind (fun size ds => eosioAssert .arrayRead (n = size.value.toNat)
        "T[] size and unpacked size don't match" >>= fun _ => match s.primitive? with
          | some p => ds.read (n * p.width) >>= fun d => pure (ofMemory p n d.1.toList, d.2)
          | none => ds.readMany s.read n) ?_
      simp only [hassert, Rollback.ok_bind]
      cases s.primitive? with
      | some p =>
          have hlen : (v.toList.flatMap p.toBytes).length = n * p.width := by
            rw [length_flatMap_toBytes, v.toList_length]
          have hread := (reads_bytes ⟨_, hlen⟩).map fun d => ofMemory p n d.toList
          simp only [List.Vector.toList_mk, ofMemory_eq] at hread
          simpa only [List.flatten_singleton] using hread
      | none =>
          rw [flatten_flatMap]
          exact reads_many ih v
  | nil => exact fun rest pos => rfl
  | cons s t ihs iht =>
      rw [encode, chunks, List.flatten_append]
      exact (ihs v.1).bind (fun a ds => t.read ds >>= fun b => pure ((a, b.1), b.2))
        ((iht v.2).map fun b => (v.1, b))
  | set cmp s ih =>
      have hread := reads_sized v.length_lt (StdSet.ofVector cmp)
        (fun n ds => ds.readMany s.read n) (reads_many ih ⟨v.elements, toNat_size v.length_lt⟩)
      rw [ofVector_elements] at hread
      rw [encode, chunks, List.flatten_append, flatten_flatMap]
      exact hread
  | struct fields s ih =>
      have hread := (ih (fields v)).map fields.symm
      rw [Equiv.symm_apply_apply] at hread
      exact hread

theorem unpack_encode {α : Type} (s : Serial α) (v : α) : s.unpack (s.encode v) = .ok v := by
  have hread := reads_encode s v [] 0
  rw [List.append_nil] at hread
  rw [unpack, hread]
  rfl

/-- A value of any serializable type: `pack_size` is what `operator<<` writes,
`pack` succeeds and fills its buffer with these bytes, `unpack` returns the
value, and from a stream that starts with the bytes exactly they are read. -/
theorem unpack_pack {α : Type} (s : Serial α) (v : α) :
    ∃ bytes, s.packSize v = .ok bytes.length ∧
      s.write (BufferStream.mk (List.replicate bytes.length 0) 0) v = .ok ⟨bytes, bytes.length⟩ ∧
      s.pack v = .ok bytes ∧ s.unpack bytes = .ok v ∧
      ∀ rest, s.read ⟨bytes ++ rest, 0⟩ = .ok (v, ⟨rest, bytes.length⟩) := by
  have hread : ∀ rest, s.read ⟨s.encode v ++ rest, 0⟩ = .ok (v, ⟨rest, (s.encode v).length⟩) :=
    fun rest => by simpa using reads_encode s v rest 0
  exact ⟨s.encode v, s.packSize_eq v, s.write_buffer_eq v, s.pack_eq v, s.unpack_encode v, hread⟩

end Serial

end Xidata.Eosiolib
