import Xidata.Library.OrderedTable
import Xidata.Eosiolib.Asset

/-!
The token contract: its two tables, its three actions, and the inline
transfer by which `issue` passes the new tokens on.  An action together with
the inline actions it sends succeeds or fails as a whole.
-/

namespace Xidata.Token

open Eosiolib

structure Account where
  balance : Asset
  deriving DecidableEq

structure CurrencyStats where
  supply : Asset
  maxSupply : Asset
  issuer : AccountName
  deriving DecidableEq

/-- The table `stat` (one scope per symbol name, holding that symbol's row)
and the tables `accounts` (scope: owner, primary key: symbol name). -/
structure State where
  stat : OrderedTable SymbolName CurrencyStats
  accounts : OrderedTable Scoped Account

def State.init : State := ⟨.empty, .empty⟩

inductive Action
  | create (issuer : AccountName) (maximumSupply : Asset)
  | issue (to_ : AccountName) (quantity : Asset) (memo : String)
  | transfer (from_ to_ : AccountName) (quantity : Asset) (memo : String)
  deriving DecidableEq

/-- An inline action and the authority it is sent with. -/
structure Inline where
  auth : List AccountName
  action : Action
  deriving DecidableEq

/-- The account the contract is deployed on. -/
def self : AccountName := N "eosio.token"

def create (c : Ctx) (t : State) (issuer : AccountName) (maximumSupply : Asset) :
    Result State := do
  requireAuth c self
  let sym := maximumSupply.symbol
  eosioAssert .create sym.isValid "invalid symbol name"
  eosioAssert .create maximumSupply.isValid "invalid supply"
  eosioAssert .create (0 < maximumSupply.amount) "max-supply must be positive"
  eosioAssert .create (t.stat.find sym.name = none) "token with symbol already exists"
  pure { t with
    stat := t.stat.set sym.name
      { supply := { Asset.zero with symbol := sym }, maxSupply := maximumSupply, issuer } }

def subBalance (t : State) (owner : AccountName) (value : Asset) : Result State := do
  let from_ ← getRow .subBalance (t.accounts.find ⟨owner, value.symbol.name⟩)
    "no balance object found"
  eosioAssert .subBalance (value.amount ≤ from_.balance.amount) "overdrawn balance"
  if from_.balance.amount = value.amount then
    pure { t with accounts := t.accounts.erase ⟨owner, value.symbol.name⟩ }
  else do
    let balance ← from_.balance.sub value
    pure { t with accounts := t.accounts.set ⟨owner, value.symbol.name⟩ ⟨balance⟩ }

def addBalance (t : State) (owner : AccountName) (value : Asset) : Result State :=
  match t.accounts.find ⟨owner, value.symbol.name⟩ with
  | none => pure { t with accounts := t.accounts.set ⟨owner, value.symbol.name⟩ ⟨value⟩ }
  | some to_ => do
    let balance ← to_.balance.add value
    pure { t with accounts := t.accounts.set ⟨owner, value.symbol.name⟩ ⟨balance⟩ }

def issue (c : Ctx) (t : State) (to_ : AccountName) (quantity : Asset) (memo : String) :
    Result (State × List Inline) := do
  let sym := quantity.symbol
  eosioAssert .issue sym.isValid "invalid symbol name"
  eosioAssert .issue (memo.utf8ByteSize ≤ 256) "memo has more than 256 bytes"
  let st ← getRow .issue (t.stat.find sym.name)
    "token with symbol does not exist, create token before issue"
  requireAuth c st.issuer
  eosioAssert .issue quantity.isValid "invalid quantity"
  eosioAssert .issue (0 < quantity.amount) "must issue positive quantity"
  eosioAssert .issue (quantity.symbol = st.supply.symbol) "symbol precision mismatch"
  eosioAssert .issue (quantity.amount ≤ st.maxSupply.amount - st.supply.amount)
    "quantity exceeds available supply"
  let supply ← st.supply.add quantity
  let t ← addBalance { t with stat := t.stat.set sym.name { st with supply } } st.issuer quantity
  pure (t, if to_ ≠ st.issuer then
      [⟨[st.issuer], .transfer st.issuer to_ quantity memo⟩]
    else [])

def transfer (c : Ctx) (t : State) (from_ to_ : AccountName) (quantity : Asset) (memo : String) :
    Result State := do
  eosioAssert .transfer (from_ ≠ to_) "cannot transfer to self"
  requireAuth c from_
  eosioAssert .transfer (c.isAccount to_) "to account does not exist"
  let sym := quantity.symbol.name
  let st ← getRow .multiIndex (t.stat.find sym) "unable to find key"
  eosioAssert .transfer quantity.isValid "invalid quantity"
  eosioAssert .transfer (0 < quantity.amount) "must transfer positive quantity"
  eosioAssert .transfer (quantity.symbol = st.supply.symbol) "symbol precision mismatch"
  eosioAssert .transfer (memo.utf8ByteSize ≤ 256) "memo has more than 256 bytes"
  let t ← subBalance t from_ quantity
  addBalance t to_ quantity

/-- `token::get_supply`. -/
def getSupply (t : State) (sym : SymbolName) : Result Asset := do
  let st ← getRow .multiIndex (t.stat.find sym) "unable to find key"
  pure st.supply

/-- One action of the contract: the new tables and the inline actions it sends. -/
def apply (c : Ctx) (t : State) : Action → Result (State × List Inline)
  | .create issuer maximumSupply => (·, []) <$> create c t issuer maximumSupply
  | .issue to_ quantity memo => issue c t to_ quantity memo
  | .transfer from_ to_ quantity memo => (·, []) <$> transfer c t from_ to_ quantity memo

/-- An inline action runs under its own authority.  Only `issue` sends inline
actions, and what it sends is a transfer. -/
def applyInline (c : Ctx) (t : State) (i : Inline) : Result State :=
  Prod.fst <$> apply { c with auth := i.auth } t i.action

/-- An action followed by the inline actions it sends. -/
def exec (c : Ctx) (t : State) (a : Action) : Result State := do
  let r ← apply c t a
  r.2.foldlM (applyInline c) r.1

end Xidata.Token
