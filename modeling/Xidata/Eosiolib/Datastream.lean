import Mathlib.Data.List.OfFn
import Mathlib.Data.Vector.Basic
import Mathlib.Logic.Equiv.Defs
import Xidata.Eosiolib.Host
import Xidata.Library.ByteCode

/-!
Serialization: how values are written to a stream and read back.  There are
two streams to write to, one that only counts and one over a buffer, and the
same operators write to both; `pack` sizes its buffer with the first and
fills it through the second.

A type that can be serialized is described by a `Serial`: the way it is built
from the types the library has operators for.  `Serial.write` and
`Serial.read` are the operators `<<` and `>>` of all these types.  Sizes are
natural numbers, and a container of the library has fewer than `2 ^ 32`
elements.
-/

namespace Xidata.Eosiolib

abbrev Bytes := List UInt8

/-! ### Streams -/

/-- A stream that can be written to. -/
class OutStream (S : Type) where
  write : S → Bytes → Result S

/-- `datastream<size_t>`: counts what is written. -/
structure SizeStream where
  size : ℕ
  deriving DecidableEq

instance : OutStream SizeStream where
  write ds d := .ok ⟨ds.size + d.length⟩

/-- `datastream<char*>`: a buffer and the position of the next write. -/
structure BufferStream where
  buffer : Bytes
  pos : ℕ
  deriving DecidableEq

/-- The size is converted to `int32_t` before it is compared. -/
instance : OutStream BufferStream where
  write ds d := do
    eosioAssert .datastreamWrite
      ((d.length : ℤ).bmod 4294967296 ≤ (ds.buffer.length : ℤ) - ds.pos) "write"
    pure ⟨ds.buffer.take ds.pos ++ d ++ ds.buffer.drop (ds.pos + d.length), ds.pos + d.length⟩

/-- `datastream<const char*>`: what is left to read, and `tellp()`. -/
structure InStream where
  rest : Bytes
  pos : ℕ
  deriving DecidableEq

def InStream.read (ds : InStream) (n : ℕ) : Result (List.Vector UInt8 n × InStream) :=
  if h : n ≤ ds.rest.length then
    .ok (⟨ds.rest.take n, List.length_take_of_le h⟩, ⟨ds.rest.drop n, ds.pos + n⟩)
  else .error (.assertion .datastreamRead "read")

/-- Read `n` values one after the other. -/
def InStream.readMany {α : Type} (readOne : InStream → Result (α × InStream)) :
    (n : ℕ) → InStream → Result (List.Vector α n × InStream)
  | 0, ds => .ok (.nil, ds)
  | n + 1, ds => do
    let head ← readOne ds
    let tail ← readMany readOne n head.2
    pure (head.1 ::ᵥ tail.1, tail.2)

/-! ### Variable-length integers -/

structure UnsignedInt where
  value : UInt32
  deriving DecidableEq

/-- The loop of `operator<<` for `unsigned_int`, with a bound on its passes. -/
def putGroups {S : Type} [OutStream S] : ℕ → UInt64 → S → Result S
  | 0, _, ds => .ok ds
  | passes + 1, val, ds => do
    let b := val.toUInt8 &&& 0x7f
    let val := val >>> 7
    let b := b ||| (if 0 < val then 0x80 else 0)
    let ds ← OutStream.write ds [b]
    if val ≠ 0 then putGroups passes val ds else pure ds

/-- Ten groups of seven bits hold every 64-bit value. -/
def putUnsignedInt {S : Type} [OutStream S] (ds : S) (v : UnsignedInt) : Result S :=
  putGroups 10 v.value.toUInt64 ds

/-- The loop of `operator>>` for `unsigned_int`, over the bytes left to read.
A shift is by its count modulo 32. -/
def getGroups (v : UInt64) (shift : UInt8) : Bytes → ℕ → Result (UnsignedInt × InStream)
  | [], _ => .error (.assertion .datastreamGet "get")
  | b :: rest, pos =>
      let v := v ||| ((b &&& 0x7f).toUInt32 <<< shift.toUInt32).toUInt64
      if b &&& 0x80 ≠ 0 then getGroups v (shift + 7) rest (pos + 1)
      else .ok (⟨v.toUInt32⟩, ⟨rest, pos + 1⟩)

def getUnsignedInt (ds : InStream) : Result (UnsignedInt × InStream) :=
  getGroups 0 0 ds.rest ds.pos

/-! ### Values of the library's types -/

/-- A type that is copied byte by byte between a value and the stream. -/
structure Primitive (α : Type) where
  width : ℕ
  toBytes : α → Bytes
  ofBytes : Bytes → α
  length_toBytes : ∀ v, (toBytes v).length = width
  ofBytes_toBytes : ∀ v, ofBytes (toBytes v) = v

/-- An integer type of `width` bytes, given by its bits. -/
def Primitive.int {α : Type} (width : ℕ) (bits : α ≃ BitVec (8 * width)) : Primitive α where
  width := width
  toBytes v := ByteCode.littleEndian width (bits v).toNat
  ofBytes d := bits.symm (BitVec.ofNat _ (ByteCode.ofLittleEndian d))
  length_toBytes v := ByteCode.length_littleEndian width _
  ofBytes_toBytes v := by
    have hlt : (bits v).toNat < 256 ^ width := by
      have hpow : 256 ^ width = 2 ^ (8 * width) := by rw [pow_mul]; rfl
      exact hpow ▸ (bits v).isLt
    rw [ByteCode.ofLittleEndian_littleEndian hlt, BitVec.ofNat_toNat, BitVec.setWidth_eq,
      Equiv.symm_apply_apply]

def Primitive.uint8 : Primitive UInt8 :=
  .int 1 ⟨UInt8.toBitVec, UInt8.ofBitVec, fun _ => rfl, fun _ => rfl⟩

def Primitive.uint16 : Primitive UInt16 :=
  .int 2 ⟨UInt16.toBitVec, UInt16.ofBitVec, fun _ => rfl, fun _ => rfl⟩

def Primitive.uint32 : Primitive UInt32 :=
  .int 4 ⟨UInt32.toBitVec, UInt32.ofBitVec, fun _ => rfl, fun _ => rfl⟩

def Primitive.uint64 : Primitive UInt64 :=
  .int 8 ⟨UInt64.toBitVec, UInt64.ofBitVec, fun _ => rfl, fun _ => rfl⟩

def Primitive.int64 : Primitive Int64 :=
  .int 8 ⟨Int64.toBitVec, Int64.ofBitVec, fun _ => rfl, fun _ => rfl⟩

/-- `bool`, written as a `uint8_t`. -/
def Primitive.bool : Primitive Bool where
  width := 1
  toBytes v := [v.toUInt8]
  ofBytes d := d.headD 0 ≠ 0
  length_toBytes _ := rfl
  ofBytes_toBytes v := by cases v <;> rfl

/-- `std::vector`. -/
abbrev StdVector (α : Type) := { l : List α // l.length < 4294967296 }

/-- `std::string`. -/
abbrev StdString := StdVector UInt8

/-- As many elements as a size read from a stream says. -/
def StdVector.ofSize {α : Type} (size : UnsignedInt) (v : List.Vector α size.value.toNat) :
    StdVector α :=
  ⟨v.toList, by rw [v.toList_length]; exact size.value.toNat_lt⟩

/-- A strict ordering to keep a set by. -/
structure Comparator (α : Type) where
  less : α → α → Bool
  trans : ∀ a b c, less a b → less b c → less a c

/-- The ordering of a map's entries by their keys. -/
def Comparator.onKey {κ : Type} (cmp : Comparator κ) (β : Type) : Comparator (κ × β) where
  less p q := cmp.less p.1 q.1
  trans p q r := cmp.trans p.1 q.1 r.1

/-- `emplace`: an element that is already there, up to the ordering, stays. -/
def Comparator.emplace {α : Type} (cmp : Comparator α) (v : α) : List α → List α
  | [] => [v]
  | x :: l =>
      if cmp.less x v then x :: emplace cmp v l
      else if cmp.less v x then v :: x :: l
      else x :: l

/-- `std::set` and `flat_set`: the elements in increasing order. -/
structure StdSet {α : Type} (cmp : Comparator α) where
  elements : List α
  sorted : elements.Pairwise fun a b => cmp.less a b
  length_lt : elements.length < 4294967296

namespace Comparator

variable {α : Type} (cmp : Comparator α)

theorem mem_emplace {v a : α} {l : List α} (h : a ∈ cmp.emplace v l) : a = v ∨ a ∈ l := by
  induction l with
  | nil => exact .inl (List.mem_singleton.mp h)
  | cons x l ih =>
      rw [emplace] at h
      split at h
      · rcases List.mem_cons.mp h with rfl | h
        · exact .inr List.mem_cons_self
        · exact (ih h).imp_right (List.mem_cons_of_mem x)
      · split at h
        · exact List.mem_cons.mp h
        · exact .inr h

theorem pairwise_emplace (v : α) {l : List α} (h : l.Pairwise fun a b => cmp.less a b) :
    (cmp.emplace v l).Pairwise fun a b => cmp.less a b := by
  induction l with
  | nil => exact List.pairwise_singleton _ _
  | cons x l ih =>
      obtain ⟨hx, hl⟩ := List.pairwise_cons.mp h
      rw [emplace]
      split
      · rename_i hxv
        refine List.pairwise_cons.mpr ⟨fun a ha => ?_, ih hl⟩
        rcases cmp.mem_emplace ha with rfl | ha
        · exact hxv
        · exact hx a ha
      · split
        · rename_i hvx
          refine List.pairwise_cons.mpr ⟨fun a ha => ?_, h⟩
          rcases List.mem_cons.mp ha with rfl | ha
          · exact hvx
          · exact cmp.trans v x a hvx (hx a ha)
        · exact h

theorem length_emplace_le (v : α) (l : List α) : (cmp.emplace v l).length ≤ l.length + 1 := by
  induction l with
  | nil => exact le_refl _
  | cons x l ih =>
      rw [emplace]
      split
      · exact Nat.succ_le_succ ih
      · split
        · exact le_refl _
        · exact Nat.le_succ _

/-- An element behind all others is put at the end. -/
theorem emplace_of_forall_less {v : α} {l : List α} (h : ∀ a ∈ l, cmp.less a v) :
    cmp.emplace v l = l ++ [v] := by
  induction l with
  | nil => rfl
  | cons x l ih =>
      rw [emplace, if_pos (h x List.mem_cons_self), ih fun a ha => h a (List.mem_cons_of_mem x ha)]
      rfl

end Comparator

/-- The set after emplacing elements one after the other into an empty one. -/
def StdSet.ofVector {α : Type} (cmp : Comparator α) (v : StdVector α) : StdSet cmp where
  elements := v.val.foldl (fun s a => cmp.emplace a s) []
  sorted := by
    suffices hfold : ∀ l s : List α, s.Pairwise (fun a b => cmp.less a b) →
        (l.foldl (fun s a => cmp.emplace a s) s).Pairwise fun a b => cmp.less a b from
      hfold v.val [] List.Pairwise.nil
    intro l
    induction l with
    | nil => exact fun s hs => hs
    | cons a l ih => exact fun s hs => ih _ (cmp.pairwise_emplace a hs)
  length_lt := by
    suffices hfold : ∀ l s : List α,
        (l.foldl (fun s a => cmp.emplace a s) s).length ≤ l.length + s.length from
      lt_of_le_of_lt (hfold v.val []) v.property
    intro l
    induction l with
    | nil => exact fun s => Nat.le_add_left _ _
    | cons a l ih =>
        intro s
        have hrest := ih (cmp.emplace a s)
        have hone := cmp.length_emplace_le a s
        rw [List.foldl_cons, List.length_cons]
        omega

/-! ### The operators of all types -/

/-- How a type is built from the types there are operators for.  `checksum`
is an array of bytes without a length, `array` is `std::array` and `cArray`
the built-in array; `nil` and `cons` list the fields of a tuple, and a
`struct` is its fields in another shape. -/
inductive Serial : Type → Type 1
  | primitive {α : Type} (p : Primitive α) : Serial α
  | unsignedInt : Serial UnsignedInt
  | checksum (n : ℕ) : Serial (List.Vector UInt8 n)
  | string : Serial StdString
  | bytes : Serial (StdVector UInt8)
  | vector {α : Type} (s : Serial α) : Serial (StdVector α)
  | array {α : Type} (n : ℕ) (s : Serial α) : Serial (List.Vector α n)
  | cArray {α : Type} (n : ℕ) (hn : n < 4294967296) (s : Serial α) : Serial (List.Vector α n)
  | nil : Serial Unit
  | cons {α β : Type} (s : Serial α) (t : Serial β) : Serial (α × β)
  | set {α : Type} (cmp : Comparator α) (s : Serial α) : Serial (StdSet cmp)
  | struct {α β : Type} (fields : α ≃ β) (s : Serial β) : Serial α

namespace Serial

/-- `std::map` and `flat_map`: the entries in the order of their keys, an entry
whose key is there already left out on reading. -/
def map {κ β : Type} (cmp : Comparator κ) (k : Serial κ) (v : Serial β) :
    Serial (StdSet (cmp.onKey β)) :=
  .set (cmp.onKey β) (.cons k v)

/-- The types that `is_primitive` holds of. -/
def primitive? {α : Type} : Serial α → Option (Primitive α)
  | .primitive p => some p
  | _ => none

/-- `operator<<`. -/
def write {S : Type} [OutStream S] : {α : Type} → Serial α → S → α → Result S
  | _, .primitive p, ds, v => OutStream.write ds (p.toBytes v)
  | _, .unsignedInt, ds, v => putUnsignedInt ds v
  | _, .checksum _, ds, v => OutStream.write ds v.toList
  | _, .string, ds, v => do
    let ds ← putUnsignedInt ds ⟨v.val.length.toUInt32⟩
    if v.val.length ≠ 0 then OutStream.write ds v.val else pure ds
  | _, .bytes, ds, v => do
    let ds ← putUnsignedInt ds ⟨v.val.length.toUInt32⟩
    OutStream.write ds v.val
  | _, .vector s, ds, v => do
    let ds ← putUnsignedInt ds ⟨v.val.length.toUInt32⟩
    v.val.foldlM (fun ds i => write s ds i) ds
  | _, .array _ s, ds, v => v.toList.foldlM (fun ds i => write s ds i) ds
  | _, .cArray n _ s, ds, v => do
    let ds ← putUnsignedInt ds ⟨n.toUInt32⟩
    match s.primitive? with
    | some p => OutStream.write ds (v.toList.flatMap p.toBytes)
    | none => v.toList.foldlM (fun ds i => write s ds i) ds
  | _, .nil, ds, _ => pure ds
  | _, .cons s t, ds, v => do
    let ds ← write s ds v.1
    write t ds v.2
  | _, .set _ s, ds, v => do
    let ds ← putUnsignedInt ds ⟨v.elements.length.toUInt32⟩
    v.elements.foldlM (fun ds i => write s ds i) ds
  | _, .struct fields s, ds, v => write s ds (fields v)

/-- The elements of a built-in array of primitives in its memory. -/
def ofMemory {α : Type} (p : Primitive α) : (n : ℕ) → Bytes → List.Vector α n
  | 0, _ => .nil
  | n + 1, d => p.ofBytes (d.take p.width) ::ᵥ ofMemory p n (d.drop p.width)

/-- `operator>>`.  A container is first given its size, so that every element
is read into place. -/
def read : {α : Type} → Serial α → InStream → Result (α × InStream)
  | _, .primitive p, ds => do
    let d ← ds.read p.width
    pure (p.ofBytes d.1.toList, d.2)
  | _, .unsignedInt, ds => getUnsignedInt ds
  | _, .checksum n, ds => ds.read n
  | _, .string, ds | _, .bytes, ds => do
    let size ← getUnsignedInt ds
    let d ← size.2.read size.1.value.toNat
    pure (.ofSize size.1 d.1, d.2)
  | _, .vector s, ds => do
    let size ← getUnsignedInt ds
    let v ← size.2.readMany (read s) size.1.value.toNat
    pure (.ofSize size.1 v.1, v.2)
  | _, .array n s, ds => ds.readMany (read s) n
  | _, .cArray n _ s, ds => do
    let size ← getUnsignedInt ds
    eosioAssert .arrayRead (n = size.1.value.toNat) "T[] size and unpacked size don't match"
    match s.primitive? with
    | some p => do
      let d ← size.2.read (n * p.width)
      pure (ofMemory p n d.1.toList, d.2)
    | none => size.2.readMany (read s) n
  | _, .nil, ds => pure ((), ds)
  | _, .cons s t, ds => do
    let head ← read s ds
    let tail ← read t head.2
    pure ((head.1, tail.1), tail.2)
  | _, .set cmp s, ds => do
    let size ← getUnsignedInt ds
    let v ← size.2.readMany (read s) size.1.value.toNat
    pure (.ofVector cmp (.ofSize size.1 v.1), v.2)
  | _, .struct fields s, ds => do
    let v ← read s ds
    pure (fields.symm v.1, v.2)

/-! ### Packing -/

def unpack {α : Type} (s : Serial α) (buffer : Bytes) : Result α := do
  let result ← s.read ⟨buffer, 0⟩
  pure result.1

def packSize {α : Type} (s : Serial α) (value : α) : Result ℕ := do
  let ps ← s.write (SizeStream.mk 0) value
  pure ps.size

def pack {α : Type} (s : Serial α) (value : α) : Result Bytes := do
  let size ← s.packSize value
  let ds ← s.write (BufferStream.mk (List.replicate size 0) 0) value
  pure ds.buffer

end Serial

/-! ### Types with operators of their own -/

def packWith {α : Type} (write : {S : Type} → [OutStream S] → S → α → Result S) (value : α) :
    Result Bytes := do
  let ps ← write (SizeStream.mk 0) value
  let ds ← write (BufferStream.mk (List.replicate ps.size 0) 0) value
  pure ds.buffer

def unpackWith {α : Type} (read : InStream → Result (α × InStream)) (buffer : Bytes) :
    Result α := do
  let result ← read ⟨buffer, 0⟩
  pure result.1

end Xidata.Eosiolib
