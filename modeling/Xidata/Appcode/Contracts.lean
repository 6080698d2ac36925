import Xidata.Eosiolib.Asset
import Xidata.Eosiolib.MultiIndex

/-!
The contracts of the app: transfers, red envelopes and the egg game.  Every
action adds one row to a table of its contract, under the next primary key,
and nothing else.
-/

namespace Xidata.Appcode

open Eosiolib

/-! ### Serialization -/

def symbolSerial : Serial SymbolType :=
  .struct ⟨SymbolType.value, SymbolType.mk, fun _ => rfl, fun _ => rfl⟩ (.primitive .uint64)

def assetSerial : Serial Asset :=
  .struct ⟨fun a => (a.amount, a.symbol), fun p => ⟨p.1, p.2⟩, fun _ => rfl, fun _ => rfl⟩
    (.cons (.primitive .int64) symbolSerial)

/-! ### An action that is recorded -/

/-- The rows of a table, as the chain stores them. -/
abbrev Table := OrderedTable UInt64 Bytes

/-- A table without secondary indices. -/
abbrev NoIndex : Fin 0 → Type := Fin.elim0

instance noIndexLinearOrder (k : Fin 0) : LinearOrder (NoIndex k) := k.elim0

/-- The instance that an action opens on a table of its contract. -/
def openTable {T : Type} (self : AccountName) (table : Table) : MultiIndex NoIndex T where
  code := self
  receiver := self
  primary := ⟨table, []⟩
  indices k := k.elim0

/-- `emplace` of an object that takes the next primary key as its `id`. -/
def record {T : Type} (d : Schema NoIndex T) (self : AccountName) (table : Table)
    (row : UInt64 → T) : Result Table := do
  let r ← MultiIndex.emplace d (openTable self table) fun m => do
    let id ← MultiIndex.availablePrimaryKey d m
    pure (row id.1, id.2)
  pure r.2.primary.rows

/-- A handler for each action name. -/
def dispatch {σ : Type} (receiver code action : AccountName) (s : σ)
    (handlers : List (AccountName × Result σ)) : Result σ := do
  eosioAssert .apply (action = N "onerror" → code = N "eosio")
    "onerror action's are only valid from the \"eosio\" system account"
  if code = receiver ∨ action = N "onerror" then
    match handlers.find? fun h => h.1 = action with
    | some h => h.2
    | none => pure s
  else pure s

/-- `execute_action`. -/
def executeAction {σ α : Type} (args : Serial α) (data : Bytes) (f : α → Result σ) : Result σ := do
  let a ← args.unpack data
  f a

/-! ### Transfers -/

structure Datatable where
  id : UInt64
  from_ : StdString
  frompub : StdString
  to_ : StdString
  topub : StdString
  quantity : Asset
  deriving DecidableEq

def datatable : Schema NoIndex Datatable where
  serial := .struct ⟨fun o => (o.id, o.from_, o.frompub, o.to_, o.topub, o.quantity),
      fun p => ⟨p.1, p.2.1, p.2.2.1, p.2.2.2.1, p.2.2.2.2.1, p.2.2.2.2.2⟩, fun _ => rfl, fun _ => rfl⟩
    (.cons (.primitive .uint64) (.cons .string (.cons .string (.cons .string
      (.cons .string assetSerial)))))
  primaryKey := Datatable.id
  secondary k := k.elim0

/-- The parameters of `transfer`. -/
structure TransferArgs where
  from_ : StdString
  frompub : StdString
  to_ : StdString
  topub : StdString
  quantity : Asset
  memo : StdString
  deriving DecidableEq

def TransferArgs.serial : Serial TransferArgs :=
  .struct ⟨fun a => (a.from_, a.frompub, a.to_, a.topub, a.quantity, a.memo),
      fun p => ⟨p.1, p.2.1, p.2.2.1, p.2.2.2.1, p.2.2.2.2.1, p.2.2.2.2.2⟩, fun _ => rfl, fun _ => rfl⟩
    (.cons .string (.cons .string (.cons .string (.cons .string (.cons assetSerial .string)))))

/-- What the constructor of `transfer` fills in. -/
def TransferArgs.row (a : TransferArgs) (id : UInt64) : Datatable where
  id := id
  from_ := a.from_
  frompub := a.frompub
  to_ := a.to_
  topub := a.topub
  quantity := a.quantity

structure Fbstransfer where
  datatable : Table := .empty

namespace Fbstransfer

def transfer (self : AccountName) (t : Fbstransfer) (a : TransferArgs) : Result Fbstransfer := do
  let datatable ← record Appcode.datatable self t.datatable a.row
  pure { t with datatable }

def apply (receiver code action : AccountName) (data : Bytes) (t : Fbstransfer) :
    Result Fbstransfer :=
  dispatch receiver code action t
    [(N "transfer", executeAction TransferArgs.serial data (transfer receiver t))]

end Fbstransfer

/-! ### Red envelopes -/

structure Datasend where
  id : UInt64
  from_ : StdString
  frompub : StdString
  quantity : Asset
  num : UInt32
  deriving DecidableEq

def datasend : Schema NoIndex Datasend where
  serial := .struct ⟨fun o => (o.id, o.from_, o.frompub, o.quantity, o.num),
      fun p => ⟨p.1, p.2.1, p.2.2.1, p.2.2.2.1, p.2.2.2.2⟩, fun _ => rfl, fun _ => rfl⟩
    (.cons (.primitive .uint64) (.cons .string (.cons .string (.cons assetSerial
      (.primitive .uint32)))))
  primaryKey := Datasend.id
  secondary k := k.elim0

structure Datarecv where
  id : UInt64
  name : StdString
  publickey : StdString
  quantity : Asset
  deriving DecidableEq

def datarecv : Schema NoIndex Datarecv where
  serial := .struct ⟨fun o => (o.id, o.name, o.publickey, o.quantity),
      fun p => ⟨p.1, p.2.1, p.2.2.1, p.2.2.2⟩, fun _ => rfl, fun _ => rfl⟩
    (.cons (.primitive .uint64) (.cons .string (.cons .string assetSerial)))
  primaryKey := Datarecv.id
  secondary k := k.elim0

structure SendArgs where
  from_ : StdString
  frompub : StdString
  quantity : Asset
  num : UInt32
  memo : StdString
  deriving DecidableEq

def SendArgs.serial : Serial SendArgs :=
  .struct ⟨fun a => (a.from_, a.frompub, a.quantity, a.num, a.memo),
      fun p => ⟨p.1, p.2.1, p.2.2.1, p.2.2.2.1, p.2.2.2.2⟩, fun _ => rfl, fun _ => rfl⟩
    (.cons .string (.cons .string (.cons assetSerial (.cons (.primitive .uint32) .string))))

def SendArgs.row (a : SendArgs) (id : UInt64) : Datasend where
  id := id
  from_ := a.from_
  frompub := a.frompub
  quantity := a.quantity
  num := a.num

structure RecvArgs where
  name : StdString
  publickey : StdString
  quantity : Asset
  memo : StdString
  deriving DecidableEq

def RecvArgs.serial : Serial RecvArgs :=
  .struct ⟨fun a => (a.name, a.publickey, a.quantity, a.memo),
      fun p => ⟨p.1, p.2.1, p.2.2.1, p.2.2.2⟩, fun _ => rfl, fun _ => rfl⟩
    (.cons .string (.cons .string (.cons assetSerial .string)))

def RecvArgs.row (a : RecvArgs) (id : UInt64) : Datarecv where
  id := id
  name := a.name
  publickey := a.publickey
  quantity := a.quantity

structure Redenvelope where
  datasend : Table := .empty
  datarecv : Table := .empty

namespace Redenvelope

def send (self : AccountName) (t : Redenvelope) (a : SendArgs) : Result Redenvelope := do
  let datasend ← record Appcode.datasend self t.datasend a.row
  pure { t with datasend }

def recv (self : AccountName) (t : Redenvelope) (a : RecvArgs) : Result Redenvelope := do
  let datarecv ← record Appcode.datarecv self t.datarecv a.row
  pure { t with datarecv }

def apply (receiver code action : AccountName) (data : Bytes) (t : Redenvelope) :
    Result Redenvelope :=
  dispatch receiver code action t
    [(N "send", executeAction SendArgs.serial data (send receiver t)),
      (N "recv", executeAction RecvArgs.serial data (recv receiver t))]

end Redenvelope

/-! ### The egg game -/

structure Game where
  id : UInt64
  gameid : UInt32
  creator : StdString
  category : StdString
  deriving DecidableEq

def game : Schema NoIndex Game where
  serial := .struct ⟨fun o => (o.id, o.gameid, o.creator, o.category),
      fun p => ⟨p.1, p.2.1, p.2.2.1, p.2.2.2⟩, fun _ => rfl, fun _ => rfl⟩
    (.cons (.primitive .uint64) (.cons (.primitive .uint32) (.cons .string .string)))
  primaryKey := Game.id
  secondary k := k.elim0

/-- The `gameid` is wider here than everywhere else. -/
structure Betinfo where
  id : UInt64
  gameid : UInt64
  gamename : StdString
  username : StdString
  publickey : StdString
  quantity : Asset
  deriving DecidableEq

def betinfo : Schema NoIndex Betinfo where
  serial := .struct ⟨fun o => (o.id, o.gameid, o.gamename, o.username, o.publickey, o.quantity),
      fun p => ⟨p.1, p.2.1, p.2.2.1, p.2.2.2.1, p.2.2.2.2.1, p.2.2.2.2.2⟩, fun _ => rfl, fun _ => rfl⟩
    (.cons (.primitive .uint64) (.cons (.primitive .uint64) (.cons .string (.cons .string
      (.cons .string assetSerial)))))
  primaryKey := Betinfo.id
  secondary k := k.elim0

structure Settledata where
  id : UInt64
  gameid : UInt32
  gamename : StdString
  username : StdString
  publickey : StdString
  quantity : Asset
  deriving DecidableEq

def settledata : Schema NoIndex Settledata where
  serial := .struct ⟨fun o => (o.id, o.gameid, o.gamename, o.username, o.publickey, o.quantity),
      fun p => ⟨p.1, p.2.1, p.2.2.1, p.2.2.2.1, p.2.2.2.2.1, p.2.2.2.2.2⟩, fun _ => rfl, fun _ => rfl⟩
    (.cons (.primitive .uint64) (.cons (.primitive .uint32) (.cons .string (.cons .string
      (.cons .string assetSerial)))))
  primaryKey := Settledata.id
  secondary k := k.elim0

structure CreateArgs where
  gameid : UInt32
  creator : StdString
  category : StdString
  memo : StdString
  deriving DecidableEq

def CreateArgs.serial : Serial CreateArgs :=
  .struct ⟨fun a => (a.gameid, a.creator, a.category, a.memo),
      fun p => ⟨p.1, p.2.1, p.2.2.1, p.2.2.2⟩, fun _ => rfl, fun _ => rfl⟩
    (.cons (.primitive .uint32) (.cons .string (.cons .string .string)))

def CreateArgs.row (a : CreateArgs) (id : UInt64) : Game where
  id := id
  gameid := a.gameid
  creator := a.creator
  category := a.category

/-- The parameters of `bet`, and of `settlement`. -/
structure BetArgs where
  gameid : UInt32
  gamename : StdString
  username : StdString
  publickey : StdString
  quantity : Asset
  memo : StdString
  deriving DecidableEq

def BetArgs.serial : Serial BetArgs :=
  .struct ⟨fun a => (a.gameid, a.gamename, a.username, a.publickey, a.quantity, a.memo),
      fun p => ⟨p.1, p.2.1, p.2.2.1, p.2.2.2.1, p.2.2.2.2.1, p.2.2.2.2.2⟩, fun _ => rfl, fun _ => rfl⟩
    (.cons (.primitive .uint32) (.cons .string (.cons .string (.cons .string
      (.cons assetSerial .string)))))

def BetArgs.betRow (a : BetArgs) (id : UInt64) : Betinfo where
  id := id
  gameid := a.gameid.toUInt64
  gamename := a.gamename
  username := a.username
  publickey := a.publickey
  quantity := a.quantity

def BetArgs.settleRow (a : BetArgs) (id : UInt64) : Settledata where
  id := id
  gameid := a.gameid
  gamename := a.gamename
  username := a.username
  publickey := a.publickey
  quantity := a.quantity

structure Egggame where
  game : Table := .empty
  betinfo : Table := .empty
  settledata : Table := .empty

namespace Egggame

def create (self : AccountName) (t : Egggame) (a : CreateArgs) : Result Egggame := do
  let game ← record Appcode.game self t.game a.row
  pure { t with game }

def bet (self : AccountName) (t : Egggame) (a : BetArgs) : Result Egggame := do
  let betinfo ← record Appcode.betinfo self t.betinfo a.betRow
  pure { t with betinfo }

def settlement (self : AccountName) (t : Egggame) (a : BetArgs) : Result Egggame := do
  let settledata ← record Appcode.settledata self t.settledata a.settleRow
  pure { t with settledata }

def apply (receiver code action : AccountName) (data : Bytes) (t : Egggame) : Result Egggame :=
  dispatch receiver code action t
    [(N "create", executeAction CreateArgs.serial data (create receiver t)),
      (N "bet", executeAction BetArgs.serial data (bet receiver t)),
      (N "settlement", executeAction BetArgs.serial data (settlement receiver t))]

end Egggame

/-! ### The contracts on a chain -/

/-- An action as the chain hands it to the contract on the account `receiver`:
the contract it is addressed to, its name and data, and its authorities. -/
structure Call where
  receiver : AccountName
  code : AccountName
  action : AccountName
  data : Bytes
  auth : List AccountName
  deriving DecidableEq

structure Ledgers where
  fbstransfer : Fbstransfer := {}
  redenvelope : Redenvelope := {}
  egggame : Egggame := {}

def step (s : Ledgers) (c : Call) : Result Ledgers :=
  if c.receiver = N "fbstransfer" then do
    let fbstransfer ← s.fbstransfer.apply c.receiver c.code c.action c.data
    pure { s with fbstransfer }
  else if c.receiver = N "redenvelope" then do
    let redenvelope ← s.redenvelope.apply c.receiver c.code c.action c.data
    pure { s with redenvelope }
  else if c.receiver = N "egggame" then do
    let egggame ← s.egggame.apply c.receiver c.code c.action c.data
    pure { s with egggame }
  else pure s

end Xidata.Appcode
