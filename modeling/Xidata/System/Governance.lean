import Xidata.System.DelegateBandwidth

/-!
The rest of the contract: its constructor, which creates the RAM market, the
size of RAM, name auctions, and the naming policy for new accounts.
-/

namespace Xidata.System

open Eosiolib

def namesAccount : AccountName := N "eosio.names"

/-- What the constructor does before every action: once the core token has a
supply, the RAM market exists. -/
def construct (token : Token.State) (s : State) : Result State :=
  match s.rammarket with
  | some _ => pure s
  | none => do
    let systemTokenSupply ← Token.getSupply token coreSymbol.name
    if 0 < systemTokenSupply.amount then
      pure { s with
        rammarket := some
          { supply := ⟨100000000000000, ramcoreSymbol⟩
            base := ⟨s.global.freeRam.toInt64, ramSymbol⟩
            quote := ⟨systemTokenSupply.amount / 1000, coreSymbol⟩ } }
    else pure s

def setram (c : Ctx) (s : State) (maxRamSize : UInt64) : Result State := do
  requireAuth c self
  eosioAssert .setram (s.global.maxRamSize < maxRamSize) "ram may only be increased"
  eosioAssert .setram (maxRamSize < 1024 * 1024 * 1024 * 1024 * 1024) "ram size is unrealistic"
  eosioAssert .setram (s.global.totalRamBytesReserved < maxRamSize)
    "attempt to set max below reserved"
  let delta := maxRamSize.toInt64 - s.global.maxRamSize.toInt64
  let m ← getRow .multiIndex s.rammarket "cannot pass end iterator to modify"
  pure { s with
    rammarket := some { m with base := { m.base with amount := m.base.amount + delta } }
    global := { s.global with maxRamSize } }

def rmvproducer (c : Ctx) (s : State) (producer : AccountName) : Result State := do
  requireAuth c self
  let info ← getRow .multiIndex (s.producers.find producer) "producer not found"
  pure { s with producers := s.producers.set producer info.deactivate }

/-! ### Name auctions -/

def bidname (c : Ctx) (s : State) (bidder newname : AccountName) (bid : Asset) :
    Result (State × List Token.Inline) := do
  requireAuth c bidder
  eosioAssert .bidname (nameSuffix newname = newname) "you can only bid on top-level suffix"
  eosioAssert .bidname (newname ≠ 0) "the empty name is not a valid account name to bid on"
  eosioAssert .bidname (newname &&& 0xf = 0)
    "13 character names are not valid account names to bid on"
  eosioAssert .bidname (newname &&& 0x1f0 = 0)
    "accounts with 12 character names and no dots can be created without bidding required"
  eosioAssert .bidname (¬ c.isAccount newname) "account already exists"
  eosioAssert .bidname (bid.symbol = Asset.zero.symbol) "asset must be system token"
  eosioAssert .bidname (0 < bid.amount) "insufficient bid"
  let payment := inlineTransfer bidder namesAccount bid ("bid name " ++ nameToString newname)
  let row : NameBid := ⟨newname, bidder, bid.amount, c.currentTime⟩
  match s.namebids.find newname with
  | none => pure ({ s with namebids := s.namebids.set newname row }, [payment])
  | some current => do
    eosioAssert .bidname (0 < current.highBid) "this auction has already closed"
    eosioAssert .bidname (current.highBid / 10 < bid.amount - current.highBid)
      "must increase bid by 10%"
    eosioAssert .bidname (current.highBidder ≠ bidder) "account is already highest bidder"
    let back ← Asset.make current.highBid coreSymbol
    pure ({ s with namebids := s.namebids.set newname { row with newname := current.newname } },
      [payment, inlineTransfer namesAccount current.highBidder back
        ("refund bid on name " ++ nameToString newname)])

/-- One of the first twelve characters of a name is a dot, or the name is
shorter than that. -/
def hasDot (newact : AccountName) : Bool :=
  ((List.range 12).foldl (fun (acc : UInt64 × Bool) _ =>
    (acc.1 >>> 5, acc.2 || acc.1 &&& 0x1f = 0)) (newact >>> 4, false)).2

/-- The naming policy: what `native::newaccount` does to the auctions. -/
def claimName (s : State) (creator newact : AccountName) :
    Result (OrderedTable AccountName NameBid) :=
  if creator ≠ self ∧ hasDot newact then
    if nameSuffix newact = newact then do
      let current ← getRow .newaccount (s.namebids.find newact) "no active bid for name"
      eosioAssert .newaccount (current.highBidder = creator) "only highest bidder can claim"
      eosioAssert .newaccount (current.highBid < 0) "auction for name is not closed yet"
      pure (s.namebids.erase newact)
    else do
      eosioAssert .newaccount (creator = nameSuffix newact)
        "only suffix may create this account"
      pure s.namebids
  else pure s.namebids

/-- `native::newaccount`, called after the account has been created.  The row
of a new account must not exist yet. -/
def newaccount (s : State) (creator newact : AccountName) : Result State := do
  let namebids ← claimName s creator newact
  eosioAssert .multiIndex (s.userres.find newact = none) "row already exists"
  pure { s with
    namebids
    userres := s.userres.set newact { owner := newact }
    limits := s.limits.set newact ⟨0, 0, 0⟩ }

end Xidata.System
