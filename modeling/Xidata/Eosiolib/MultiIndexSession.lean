import Xidata.Eosiolib.MultiIndexInvariant

/-!
What a contract does with one `multi_index`: commands over numbered cursors,
the variables that hold its iterators.  They are executed once on the instance
and once on a map from primary keys to rows, where a cursor stands at a key.
-/

namespace Xidata.Eosiolib

open OrderedTable

/-- What a contract can do; `on` is the cursor it starts from and `to_` the one
that takes the result. -/
inductive Cmd {n : ℕ} (σ : Fin n → Type) (T : Type)
  | emplace (to_ : ℕ) (row : T)
  /-- The constructor asks for the next primary key. -/
  | emplaceAvailable (to_ : ℕ) (row : UInt64 → T)
  | modify (on : ℕ) (updater : T → T)
  | eraseObject (on : ℕ)
  | erase (on to_ : ℕ)
  | eraseBy (k : Fin n) (on to_ : ℕ)
  | find (to_ : ℕ) (pk : UInt64)
  | lowerBound (to_ : ℕ) (pk : UInt64)
  | upperBound (to_ : ℕ) (pk : UInt64)
  | begin_ (to_ : ℕ)
  | end_ (to_ : ℕ)
  | next (on : ℕ)
  | prev (on : ℕ)
  | findBy (k : Fin n) (to_ : ℕ) (secondary : σ k)
  | lowerBoundBy (k : Fin n) (to_ : ℕ) (secondary : σ k)
  | upperBoundBy (k : Fin n) (to_ : ℕ) (secondary : σ k)
  | nextBy (k : Fin n) (on : ℕ)
  | prevBy (k : Fin n) (on : ℕ)
  | read (on : ℕ)
  | availablePrimaryKey

/-- What a command returns; a cursor that has moved shows the row it is at, or
none at the end. -/
inductive Out (T : Type)
  | done
  | row (o : Option T)
  | key (pk : UInt64)

variable {n : ℕ} {σ : Fin n → Type} {T : Type}

def Cmd.asksKey : Cmd σ T → Prop
  | .emplaceAvailable .. => True
  | .availablePrimaryKey => True
  | _ => False

/-! ### On an instance -/

structure Session {n : ℕ} (σ : Fin n → Type) (T : Type) where
  index : MultiIndex σ T
  cursors : ℕ → Iterator

namespace Session

variable [∀ k, LinearOrder (σ k)] (d : Schema σ T)

/-- A new instance over the rows of `a`, with all cursors at the end. -/
def fresh (code receiver : AccountName) (a : Rows d) : Session σ T where
  index := {
    code
    receiver
    primary := ⟨a.table.mapRows d.serial.encode, []⟩
    indices := fun k => ⟨a.table.mapRows (d.secondary k), []⟩ }
  cursors := fun _ => none

/-- The cursor `to_` takes the iterator. -/
def land (s : Session σ T) (to_ : ℕ) (r : Iterator × MultiIndex σ T) :
    Result (Out T × Session σ T) :=
  let s' : Session σ T := ⟨r.2, Function.update s.cursors to_ r.1⟩
  match r.1 with
  | none => pure (.row none, s')
  | some address => do
    let i ← r.2.object address
    pure (.row (some i.value), s')

open MultiIndex in
def exec (s : Session σ T) : Cmd σ T → Result (Out T × Session σ T)
  | .emplace to_ row => do
    let r ← emplace d s.index fun m => pure (row, m)
    s.land to_ r
  | .emplaceAvailable to_ row => do
    let r ← emplace d s.index fun m => do
      let key ← availablePrimaryKey d m
      pure (row key.1, key.2)
    s.land to_ r
  | .modify on updater => do
    let m ← modify d s.index (s.cursors on) updater
    pure (.done, { s with index := m })
  | .eraseObject on => do
    let address ← getRow .deletedObject (s.cursors on) ""
    let m ← eraseObject d s.index address
    pure (.done, { s with index := m })
  | .erase on to_ => do
    let r ← erase d s.index (s.cursors on)
    s.land to_ r
  | .eraseBy k on to_ => do
    let r ← eraseBy d s.index k (s.cursors on)
    s.land to_ r
  | .find to_ pk => do
    let r ← find d s.index pk
    s.land to_ r
  | .lowerBound to_ pk => do
    let r ← lowerBound d s.index pk
    s.land to_ r
  | .upperBound to_ pk => do
    let r ← upperBound d s.index pk
    s.land to_ r
  | .begin_ to_ => do
    let r ← begin_ d s.index
    s.land to_ r
  | .end_ to_ => s.land to_ (none, s.index)
  | .next on => do
    let r ← next d s.index (s.cursors on)
    s.land on r
  | .prev on => do
    let r ← prev d s.index (s.cursors on)
    s.land on r
  | .findBy k to_ secondary => do
    let r ← findBy d s.index k secondary
    s.land to_ r
  | .lowerBoundBy k to_ secondary => do
    let r ← lowerBoundBy d s.index k secondary
    s.land to_ r
  | .upperBoundBy k to_ secondary => do
    let r ← upperBoundBy d s.index k secondary
    s.land to_ r
  | .nextBy k on => do
    let r ← nextBy d s.index k (s.cursors on)
    s.land on r
  | .prevBy k on => do
    let r ← prevBy d s.index k (s.cursors on)
    s.land on r
  | .read on => do
    let address ← getRow .deletedObject (s.cursors on) ""
    let i ← s.index.object address
    pure (.row (some i.value), s)
  | .availablePrimaryKey => do
    let key ← availablePrimaryKey d s.index
    pure (.key key.1, { s with index := key.2 })

/-- A program up to its end; a failure anywhere undoes all of it. -/
def execAll (s : Session σ T) : List (Cmd σ T) → Result (List (Out T) × Session σ T)
  | [] => pure ([], s)
  | c :: cs => do
    let r ← exec d s c
    let rest ← execAll r.2 cs
    pure (r.1 :: rest.1, rest.2)

end Session

/-! ### On a map -/

/-- Where a cursor stands: at the end, at a key, or at a row that is gone. -/
inductive Cursor
  | end_
  | on (pk : UInt64)
  | deleted
  deriving DecidableEq

structure View (d : Schema σ T) where
  rows : Rows d
  cursors : ℕ → Cursor
  /-- Whether the contract that executes owns the table. -/
  writable : Bool

namespace View

variable {d : Schema σ T}

def start (code receiver : AccountName) (a : Rows d) : View d :=
  ⟨a, fun _ => .end_, code = receiver⟩

def land (v : View d) (to_ : ℕ) (o : Option UInt64) : Out T × View d :=
  (.row (o.bind v.rows.table.find),
    { v with cursors := Function.update v.cursors to_ (o.elim .end_ .on) })

/-- The row that a cursor stands at. -/
def row (v : View d) (on : ℕ) : Option T :=
  match v.cursors on with
  | .on pk => v.rows.table.find pk
  | _ => none

def put (v : View d) (row : T) : View d := { v with rows := v.rows.put row }

/-- The row of a key goes, and its cursors with it. -/
def remove (v : View d) (pk : UInt64) : View d :=
  { v with
    rows := v.rows.remove pk
    cursors := fun r => if v.cursors r = .on pk then .deleted else v.cursors r }

def emplace (v : View d) (to_ : ℕ) (row : T) : Option (Out T × View d) :=
  if v.writable ∧ v.rows.table.find (d.primaryKey row) = none then
    some ((v.put row).land to_ (some (d.primaryKey row)))
  else none

/-- The cursor `to_` takes the next row in an order, the row of `on` goes. -/
def erase (v : View d) (on to_ : ℕ) (next : T → Option (UInt64 × T)) : Option (Out T × View d) := do
  let row ← v.row on
  if v.writable then some ((v.remove (d.primaryKey row)).land to_ ((next row).map Prod.fst))
  else none

/-- A step back, from the end or from a row. -/
def back (v : View d) (on : ℕ) (last : Option (UInt64 × T)) (prev : T → Option (UInt64 × T)) :
    Option (Out T × View d) :=
  match v.cursors on with
  | .end_ => (last.map Prod.fst).map fun pk => v.land on (some pk)
  | _ => do
    let row ← v.row on
    ((prev row).map Prod.fst).map fun pk => v.land on (some pk)

/-- The row behind `row` in the order of the keys, and in that of an index. -/
def after (v : View d) (row : T) : Option (UInt64 × T) :=
  v.rows.table.first fun k => d.primaryKey row < k

variable [∀ k, LinearOrder (σ k)]

def afterBy (v : View d) (k : Fin n) (row : T) : Option (UInt64 × T) :=
  v.rows.table.firstBy (d.secondary k) fun q => toLex (d.secondary k row, d.primaryKey row) < q

/-- What a command does to the map, where `key` is the primary key that it asks
for. -/
def step (v : View d) (key : UInt64) : Cmd σ T → Option (Out T × View d)
  | .emplace to_ row => v.emplace to_ row
  | .emplaceAvailable to_ row => v.emplace to_ (row key)
  | .modify on updater => do
    let row ← v.row on
    if v.writable ∧ d.primaryKey (updater row) = d.primaryKey row then
      some (.done, v.put (updater row))
    else none
  | .eraseObject on => do
    let row ← v.row on
    if v.writable then some (.done, v.remove (d.primaryKey row)) else none
  | .erase on to_ => v.erase on to_ v.after
  | .eraseBy k on to_ => v.erase on to_ (v.afterBy k)
  | .find to_ pk => some (v.land to_ ((v.rows.table.find pk).map fun _ => pk))
  | .lowerBound to_ pk => some (v.land to_ ((v.rows.table.first fun k => pk ≤ k).map Prod.fst))
  | .upperBound to_ pk => some (v.land to_ ((v.rows.table.first fun k => pk < k).map Prod.fst))
  | .begin_ to_ => some (v.land to_ ((v.rows.table.first fun _ => true).map Prod.fst))
  | .end_ to_ => some (v.land to_ none)
  | .next on => do
    let row ← v.row on
    some (v.land on ((v.after row).map Prod.fst))
  | .prev on => v.back on (v.rows.table.last fun _ => true) fun row =>
      v.rows.table.last fun k => k < d.primaryKey row
  | .findBy k to_ secondary => some (v.land to_
      ((v.rows.table.firstBy (d.secondary k) fun q => (ofLex q).1 = secondary).map Prod.fst))
  | .lowerBoundBy k to_ secondary => some (v.land to_
      ((v.rows.table.firstBy (d.secondary k) fun q => secondary ≤ (ofLex q).1).map Prod.fst))
  | .upperBoundBy k to_ secondary => some (v.land to_
      ((v.rows.table.firstBy (d.secondary k) fun q => secondary < (ofLex q).1).map Prod.fst))
  | .nextBy k on => do
    let row ← v.row on
    some (v.land on ((v.afterBy k row).map Prod.fst))
  | .prevBy k on => v.back on (v.rows.table.lastBy (d.secondary k) fun _ => true) fun row =>
      v.rows.table.lastBy (d.secondary k) fun q =>
        q < toLex (d.secondary k row, d.primaryKey row)
  | .read on => do
    let row ← v.row on
    some (.row (some row), v)
  | .availablePrimaryKey => some (.key key, v)

/-- A key that a command gets is behind every key of the map. -/
def Step (v : View d) (c : Cmd σ T) (r : Out T × View d) : Prop :=
  ∃ key, (c.asksKey → ∀ pk row, v.rows.table.find pk = some row → pk < key) ∧ v.step key c = some r

/-- A program on the map, with what its commands return. -/
inductive Run : View d → List (Cmd σ T) → List (Out T) → View d → Prop
  | nil (v : View d) : Run v [] [] v
  | cons {v v₁ v' : View d} {c : Cmd σ T} {cs : List (Cmd σ T)} {out : Out T} {outs : List (Out T)}
      (h : Step v c (out, v₁)) (hrest : Run v₁ cs outs v') : Run v (c :: cs) (out :: outs) v'

end View

end Xidata.Eosiolib
