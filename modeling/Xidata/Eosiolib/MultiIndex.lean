import Xidata.Eosiolib.Database
import Xidata.Eosiolib.Datastream

/-!
`multi_index`: a table of objects with any number of secondary indices, over
the tables of the database.  One instance keeps the objects it has come across
in `items`, searched from the latest on; an iterator points to such an object
or, at the end, to none.  The iterators of an object in the indices are filled
in when they are first needed, and so is the next primary key.
-/

namespace Xidata.Eosiolib

/-- What a `multi_index` is declared with: how its objects are serialized, and
their primary and secondary keys. -/
structure Schema {n : ℕ} (σ : Fin n → Type) (T : Type) where
  serial : Serial T
  primaryKey : T → UInt64
  secondary : (k : Fin n) → T → σ k

/-- An object in memory with its iterators; `-1` stands for an iterator that is
not filled in. -/
structure Item (n : ℕ) (T : Type) where
  address : ℕ
  value : T
  primaryItr : ℤ
  iters : Fin n → ℤ

/-- `const_iterator`, for the table and for its indices: the address of an
object, none at the end. -/
abbrev Iterator := Option ℕ

def noAvailablePrimaryKey : UInt64 := 0xFFFFFFFFFFFFFFFE
def unsetNextPrimaryKey : UInt64 := 0xFFFFFFFFFFFFFFFF

/-- An instance, with the tables it works on and the account that executes. -/
structure MultiIndex {n : ℕ} (σ : Fin n → Type) (T : Type) where
  code : AccountName
  receiver : AccountName
  primary : DbTable Bytes
  indices : (k : Fin n) → DbTable (σ k)
  nextPrimaryKey : UInt64 := unsetNextPrimaryKey
  items : List (Item n T) := []
  /-- The addresses from here on are free. -/
  nextAddress : ℕ := 0

namespace MultiIndex

variable {n : ℕ} {σ : Fin n → Type} [∀ k, LinearOrder (σ k)] {T : Type} (d : Schema σ T)

/-- The object a pointer points to. -/
def object (m : MultiIndex σ T) (address : ℕ) : Result (Item n T) :=
  getRow .deletedObject (m.items.find? fun i => i.address = address) ""

def update (m : MultiIndex σ T) (i : Item n T) : MultiIndex σ T :=
  { m with items := m.items.map fun j => if j.address = i.address then i else j }

/-- A new object, behind those that are there. -/
def allocate (m : MultiIndex σ T) (value : T) (primaryItr : ℤ) (iters : Fin n → ℤ) :
    Item n T × MultiIndex σ T :=
  let i := ⟨m.nextAddress, value, primaryItr, iters⟩
  (i, { m with items := m.items ++ [i], nextAddress := m.nextAddress + 1 })

def loadObjectByPrimaryIterator (m : MultiIndex σ T) (itr : ℤ) :
    Result (Item n T × MultiIndex σ T) :=
  match m.items.reverse.find? fun i => i.primaryItr = itr with
  | some i => pure (i, m)
  | none => do
    let data ← m.primary.dbGet itr
    let value ← d.serial.unpack data
    pure (m.allocate value itr fun _ => -1)

/-- The object of a row that was looked up, or the end. -/
def reach (m : MultiIndex σ T) (f : DbFound Bytes) : Result (Iterator × MultiIndex σ T) :=
  let m := { m with primary := f.table }
  if f.itr < 0 then pure (none, m)
  else do
    let i ← loadObjectByPrimaryIterator d m f.itr
    pure (some i.1.address, i.2)

/-! ### The primary table -/

def lowerBound (m : MultiIndex σ T) (primary : UInt64) : Result (Iterator × MultiIndex σ T) :=
  reach d m (m.primary.dbLowerbound primary)

def upperBound (m : MultiIndex σ T) (primary : UInt64) : Result (Iterator × MultiIndex σ T) :=
  reach d m (m.primary.dbUpperbound primary)

def begin_ (m : MultiIndex σ T) : Result (Iterator × MultiIndex σ T) := lowerBound d m 0

/-- The latest object with the primary key, or the row from the database. -/
def find (m : MultiIndex σ T) (primary : UInt64) : Result (Iterator × MultiIndex σ T) :=
  match m.items.reverse.find? fun i => d.primaryKey i.value = primary with
  | some i => pure (some i.address, m)
  | none => reach d m (m.primary.dbFind primary)

/-- `operator++` of `const_iterator`. -/
def next (m : MultiIndex σ T) : Iterator → Result (Iterator × MultiIndex σ T)
  | none => .error (.assertion .multiIndex "cannot increment end iterator")
  | some address => do
    let i ← m.object address
    let f ← m.primary.dbNext i.primaryItr
    reach d m f

/-- `operator--` of `const_iterator`. -/
def prev (m : MultiIndex σ T) : Iterator → Result (Iterator × MultiIndex σ T)
  | none => do
    eosioAssert .multiIndex (m.primary.dbEnd ≠ -1) "cannot decrement end iterator when the table is empty"
    let f ← m.primary.dbPrevious m.primary.dbEnd
    eosioAssert .multiIndex (0 ≤ f.itr) "cannot decrement end iterator when the table is empty"
    reach d m f
  | some address => do
    let i ← m.object address
    let f ← m.primary.dbPrevious i.primaryItr
    eosioAssert .multiIndex (0 ≤ f.itr) "cannot decrement iterator at beginning of table"
    reach d m f

/-! ### Secondary indices -/

/-- The iterator of an object in an index, looked up by its primary key when it
is missing. -/
def fill (m : MultiIndex σ T) (k : Fin n) (i : Item n T) (missing : Bool) : ℤ × DbTable (σ k) :=
  if missing then
    let f := (m.indices k).dbFind (d.primaryKey i.value)
    (f.itr, f.table)
  else (i.iters k, m.indices k)

/-- The object of a row that was looked up in an index, or the end. -/
def reachBy (m : MultiIndex σ T) (k : Fin n) (f : DbFound (σ k)) :
    Result (Iterator × MultiIndex σ T) :=
  let m := { m with indices := Function.update m.indices k f.table }
  if f.itr < 0 then pure (none, m)
  else do
    let r ← find d m f.primary
    let address ← getRow .deletedObject r.1 ""
    let i ← r.2.object address
    pure (some address, r.2.update { i with iters := Function.update i.iters k f.itr })

def lowerBoundBy (m : MultiIndex σ T) (k : Fin n) (secondary : σ k) :
    Result (Iterator × MultiIndex σ T) :=
  reachBy d m k ((m.indices k).dbIdxLowerbound secondary)

def upperBoundBy (m : MultiIndex σ T) (k : Fin n) (secondary : σ k) :
    Result (Iterator × MultiIndex σ T) :=
  reachBy d m k ((m.indices k).dbIdxUpperbound secondary)

/-- The iterator of an object in an index is looked up if it is missing, and
stays filled in. -/
def filled (m : MultiIndex σ T) (k : Fin n) (i : Item n T) : ℤ × MultiIndex σ T :=
  let r := fill d m k i (i.iters k = -1)
  (r.1, { m with indices := Function.update m.indices k r.2 }.update
    { i with iters := Function.update i.iters k r.1 })

/-- `find` of an index: the lower bound, if it has the key. -/
def findBy (m : MultiIndex σ T) (k : Fin n) (secondary : σ k) :
    Result (Iterator × MultiIndex σ T) := do
  let lb ← lowerBoundBy d m k secondary
  match lb.1 with
  | none => pure lb
  | some address => do
    let i ← lb.2.object address
    if secondary ≠ d.secondary k i.value then pure (none, lb.2) else pure lb

/-- `operator++` of an index's `const_iterator`. -/
def nextBy (m : MultiIndex σ T) (k : Fin n) : Iterator → Result (Iterator × MultiIndex σ T)
  | none => .error (.assertion .multiIndex "cannot increment end iterator")
  | some address => do
    let i ← m.object address
    let r := filled d m k i
    let f ← (r.2.indices k).dbIdxNext r.1
    reachBy d r.2 k f

/-- `operator--` of an index's `const_iterator`. -/
def prevBy (m : MultiIndex σ T) (k : Fin n) : Iterator → Result (Iterator × MultiIndex σ T)
  | none => do
    eosioAssert .multiIndex ((m.indices k).dbEnd ≠ -1)
      "cannot decrement end iterator when the index is empty"
    let f ← (m.indices k).dbIdxPrevious (m.indices k).dbEnd
    eosioAssert .multiIndex (0 ≤ f.itr) "cannot decrement end iterator when the index is empty"
    reachBy d m k f
  | some address => do
    let i ← m.object address
    let r := filled d m k i
    let f ← (r.2.indices k).dbIdxPrevious r.1
    eosioAssert .multiIndex (0 ≤ f.itr) "cannot decrement iterator at beginning of index"
    reachBy d r.2 k f

/-! ### Writing -/

/-- A primary key that is in use moves the next one behind it. -/
def advance (next pk : UInt64) : UInt64 :=
  if next ≤ pk then if noAvailablePrimaryKey ≤ pk then noAvailablePrimaryKey else pk + 1 else next

def availablePrimaryKey (m : MultiIndex σ T) : Result (UInt64 × MultiIndex σ T) := do
  let m ←
    if m.nextPrimaryKey = unsetNextPrimaryKey then do
      let b ← begin_ d m
      match b.1 with
      | none => pure { b.2 with nextPrimaryKey := 0 }
      | some _ => do
        let last ← prev d b.2 none
        let address ← getRow .deletedObject last.1 ""
        let i ← last.2.object address
        let pk := d.primaryKey i.value
        pure { last.2 with
          nextPrimaryKey :=
            if noAvailablePrimaryKey ≤ pk then noAvailablePrimaryKey else pk + 1 }
    else pure m
  eosioAssert .multiIndex (m.nextPrimaryKey < noAvailablePrimaryKey)
    "next primary key in table is at autoincrement limit"
  pure (m.nextPrimaryKey, m)

/-- The constructor builds the object while its row does not exist yet. -/
def emplace (m : MultiIndex σ T) (constructor : MultiIndex σ T → Result (T × MultiIndex σ T)) :
    Result (Iterator × MultiIndex σ T) := do
  eosioAssert .multiIndex (m.code = m.receiver) "cannot create objects in table of another contract"
  let c ← constructor m
  let obj := c.1
  let m := c.2
  let data ← d.serial.pack obj
  let pk := d.primaryKey obj
  let stored ← m.primary.dbStore pk data
  let idx ← Rollback.forEach fun k => (m.indices k).dbStore pk (d.secondary k obj)
  let i := { m with
    primary := stored.table
    nextPrimaryKey := advance m.nextPrimaryKey pk
    indices := fun k => (idx k).table }.allocate obj stored.itr fun k => (idx k).itr
  pure (some i.1.address, i.2)

def modify (m : MultiIndex σ T) (it : Iterator) (updater : T → T) : Result (MultiIndex σ T) := do
  let address ← getRow .multiIndex it "cannot pass end iterator to modify"
  let i ← m.object address
  eosioAssert .multiIndex (m.code = m.receiver) "cannot modify objects in table of another contract"
  let pk := d.primaryKey i.value
  let obj := updater i.value
  eosioAssert .multiIndex (pk = d.primaryKey obj)
    "updater cannot change primary key when modifying an object"
  let data ← d.serial.pack obj
  let primary ← m.primary.dbUpdate i.primaryItr data
  -- an index whose key is unchanged is not written
  let idx ← Rollback.forEach fun k =>
    if d.secondary k i.value ≠ d.secondary k obj then do
      let r := fill d m k i (i.iters k < 0)
      let table ← r.2.dbUpdate r.1 (d.secondary k obj)
      pure (r.1, table)
    else pure (i.iters k, m.indices k)
  pure ({ m with
    primary
    nextPrimaryKey := advance m.nextPrimaryKey pk
    indices := fun k => (idx k).2 }.update { i with value := obj, iters := fun k => (idx k).1 })

/-- `erase` of an object.  It is read on after its item has left `items`. -/
def eraseObject (m : MultiIndex σ T) (address : ℕ) : Result (MultiIndex σ T) := do
  let i ← m.object address
  eosioAssert .multiIndex (m.code = m.receiver) "cannot erase objects in table of another contract"
  let pk := d.primaryKey i.value
  let found ← getRow .multiIndex (m.items.reverse.find? fun j => d.primaryKey j.value = pk)
    "attempt to remove object that was not in multi_index"
  let primary ← m.primary.dbRemove i.primaryItr
  let indices ← Rollback.forEach fun k => do
    let r := fill d m k i (i.iters k < 0)
    if 0 ≤ r.1 then r.2.dbRemove r.1 else pure r.2
  pure { m with
    primary
    indices
    items := m.items.filter fun j => j.address ≠ found.address }

/-- `erase` of an iterator, which returns the one after it. -/
def erase (m : MultiIndex σ T) (it : Iterator) : Result (Iterator × MultiIndex σ T) := do
  let address ← getRow .multiIndex it "cannot pass end iterator to erase"
  let r ← next d m it
  let m ← eraseObject d r.2 address
  pure (r.1, m)

/-- `erase` of an index's iterator. -/
def eraseBy (m : MultiIndex σ T) (k : Fin n) (it : Iterator) :
    Result (Iterator × MultiIndex σ T) := do
  let address ← getRow .multiIndex it "cannot pass end iterator to erase"
  let r ← nextBy d m k it
  let m ← eraseObject d r.2 address
  pure (r.1, m)

end MultiIndex

end Xidata.Eosiolib
