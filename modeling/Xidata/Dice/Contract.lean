import Xidata.Eosiolib.MultiIndex
import Xidata.Token.Contract

/-!
The dice contract.  Players deposit core tokens, bet them on the hash of a
secret, and are matched with a player who bets the same; the secrets are then
revealed, and one of the two gets both bets.  A player who does not reveal in
time can be claimed against.
-/

namespace Xidata.Dice

open Eosiolib

structure Checksum256 where
  hash : List UInt8
  size : hash.length = 32
  deriving DecidableEq

def Checksum256.zero : Checksum256 := ⟨List.replicate 32 0, List.length_replicate⟩

/-- `is_zero`, which compares the four words of the value. -/
def Checksum256.isZero (a : Checksum256) : Bool := a.hash.all (· = 0)

/-- The account of the contract, and the hash function of the chain. -/
structure Env where
  self : AccountName
  sha256 : List UInt8 → Checksum256

/-! ### The tables -/

structure Offer where
  owner : AccountName
  bet : Asset
  commitment : Checksum256
  gameid : UInt64
  deriving DecidableEq

structure Player where
  commitment : Checksum256
  reveal : Checksum256
  deriving DecidableEq

/-- A deadline of `0` is no deadline. -/
structure Game where
  bet : Asset
  deadline : UInt32
  player1 : Player
  player2 : Player
  deriving DecidableEq

structure Account where
  eosBalance : Asset
  openOffers : UInt32
  openGames : UInt32
  deriving DecidableEq

/-- `account::is_empty`. -/
def Account.isEmpty (a : Account) : Bool :=
  a.eosBalance.amount = 0 && a.openOffers = 0 && a.openGames = 0

/-- The four tables; of `global`, which has one row at most, the value of its
`nextgameid`. -/
structure State where
  offers : OrderedTable UInt64 Offer
  games : OrderedTable UInt64 Game
  global : Option UInt64
  accounts : OrderedTable AccountName Account

def State.init : State := ⟨.empty, .empty, none, .empty⟩

/-- `find` in the index of the offers by commitment. -/
def State.findOffer (s : State) (commitment : Checksum256) : Option (UInt64 × Offer) :=
  s.offers.rows.find? fun q => q.2.commitment = commitment

def availablePrimaryKey (offers : OrderedTable UInt64 Offer) : Result UInt64 := do
  let next := (offers.last fun _ => true).elim 0 fun q =>
    if noAvailablePrimaryKey ≤ q.1 then noAvailablePrimaryKey else q.1 + 1
  eosioAssert .multiIndex (next < noAvailablePrimaryKey)
    "next primary key in table is at autoincrement limit"
  pure next

/-- The row under an iterator that is passed to `modify`. -/
def rowToModify (accounts : OrderedTable AccountName Account) (owner : AccountName) :
    Result Account :=
  getRow .multiIndex (accounts.find owner) "cannot pass end iterator to modify"

/-! ### Offers -/

/-- The update of the account of a player who bets. -/
def takeBet (acnt : Account) (bet : Asset) : Result Account := do
  let covered ← acnt.eosBalance.ge bet
  eosioAssert .offerbet covered "insufficient balance"
  let eosBalance ← acnt.eosBalance.sub bet
  pure { acnt with eosBalance }

/-- No matching bet was found. -/
def keepOffer (s : State) (player : AccountName) (acnt : Account) (bet : Asset) : Result State := do
  let acnt ← takeBet acnt bet
  pure { s with accounts := s.accounts.set player { acnt with openOffers := acnt.openOffers + 1 } }

/-- The first offer in the index by bet that is not below the new one's, unless
it is of another bet or of the same player. -/
def matchedOffer (offers : OrderedTable UInt64 Offer) (offer : Offer) :
    Result (Option (UInt64 × Offer)) :=
  match offers.firstBy (fun o => o.bet.amount.toUInt64)
      fun k => offer.bet.amount.toUInt64 ≤ (ofLex k).1 with
  | none => pure none
  | some m => do
    let differs ← m.2.bet.ne offer.bet
    pure (if differs || m.2.owner = offer.owner then none else some m)

/-- An offer whose bet has gone into a game. -/
def Offer.joined (o : Offer) (gameid : UInt64) : Offer :=
  { o with bet := { o.bet with amount := 0 }, gameid }

/-- The new offer `id` starts a game with the offer `m`. -/
def startGame (s : State) (id : UInt64) (offer : Offer) (acnt : Account) (m : UInt64 × Offer) :
    Result State := do
  let nextgameid := s.global.getD 0 + 1
  eosioAssert .database (s.games.find nextgameid = none) "row already exists"
  let game : Game := {
    bet := offer.bet
    deadline := 0
    player1 := ⟨m.2.commitment, .zero⟩
    player2 := ⟨offer.commitment, .zero⟩ }
  let other ← rowToModify s.accounts m.2.owner
  let accounts := s.accounts.set m.2.owner { other with
    openOffers := other.openOffers - 1
    openGames := other.openGames + 1 }
  let acnt ← takeBet acnt offer.bet
  pure {
    offers := (s.offers.set m.1 (m.2.joined nextgameid)).set id (offer.joined nextgameid)
    games := s.games.set nextgameid game
    global := some nextgameid
    accounts := accounts.set offer.owner { acnt with openGames := acnt.openGames + 1 } }

/-- What becomes of an offer that was stored. -/
def placeOffer (s : State) (id : UInt64) (offer : Offer) (acnt : Account) :
    Option (UInt64 × Offer) → Result State
  | none => keepOffer s offer.owner acnt offer.bet
  | some m => startGame s id offer acnt m

def offerbet (c : Ctx) (s : State) (bet : Asset) (player : AccountName) (commitment : Checksum256) :
    Result State := do
  eosioAssert .offerbet (bet.symbol = coreSymbol) "only core token allowed"
  eosioAssert .offerbet bet.isValid "invalid bet"
  eosioAssert .offerbet (0 < bet.amount) "must bet positive quantity"
  eosioAssert .offerbet (s.findOffer commitment = none)
    "offer with this commitment already exist"
  requireAuth c player
  let acnt ← getRow .offerbet (s.accounts.find player) "unknown account"
  let id ← availablePrimaryKey s.offers
  let offer : Offer := { owner := player, bet, commitment, gameid := 0 }
  let s := { s with offers := s.offers.set id offer }
  let m ← matchedOffer s.offers offer
  placeOffer s id offer acnt m

def canceloffer (c : Ctx) (s : State) (commitment : Checksum256) : Result State := do
  let offer ← getRow .canceloffer (s.findOffer commitment) "offer does not exists"
  eosioAssert .canceloffer (offer.2.gameid = 0) "unable to cancel offer"
  requireAuth c offer.2.owner
  let acnt ← rowToModify s.accounts offer.2.owner
  let eosBalance ← acnt.eosBalance.add offer.2.bet
  pure { s with
    accounts := s.accounts.set offer.2.owner { acnt with
      openOffers := acnt.openOffers - 1
      eosBalance }
    offers := s.offers.erase offer.1 }

/-! ### Games -/

def payAndClean (s : State) (gameid : UInt64) (g : Game) (winner loser : UInt64 × Offer) :
    Result State := do
  let acnt ← rowToModify s.accounts winner.2.owner
  let prize ← g.bet.mul 2
  let eosBalance ← acnt.eosBalance.add prize
  let accounts := s.accounts.set winner.2.owner { acnt with
    eosBalance
    openGames := acnt.openGames - 1 }
  let other ← rowToModify accounts loser.2.owner
  let other := { other with openGames := other.openGames - 1 }
  pure { s with
    accounts := if other.isEmpty then accounts.erase loser.2.owner
      else accounts.set loser.2.owner other
    games := s.games.erase gameid
    offers := (s.offers.erase winner.1).erase loser.1 }

/-- The 128 bytes from the first player of the game on. -/
def Game.players (g : Game) : List UInt8 :=
  g.player1.commitment.hash ++ g.player1.reveal.hash ++ g.player2.commitment.hash ++
    g.player2.reveal.hash

/-- The test on the hash that makes the current revealer the winner. -/
def Checksum256.winner (result : Checksum256) : Bool :=
  ¬ result.hash.getD 1 0 < result.hash.getD 0 0

/-- Both secrets are known now. -/
def chooseWinner (env : Env) (s : State) (gameid : UInt64) (g : Game) (curr : UInt64 × Offer)
    (prevReveal : Player) : Result State := do
  let prev ← getRow .deletedObject (s.findOffer prevReveal.commitment) ""
  if (env.sha256 g.players).winner then payAndClean s gameid g curr prev
  else payAndClean s gameid g prev curr

def fiveMinutes : UInt32 := 5 * 60

/-- The first secret of the two is stored. -/
def Game.revealed (g : Game) (currReveal : Player) (source : Checksum256) (now : UInt32) : Game :=
  { (if currReveal.commitment = g.player1.commitment then
      { g with player1 := { g.player1 with reveal := source } }
    else { g with player2 := { g.player2 with reveal := source } }) with
    deadline := now + fiveMinutes }

/-- What the secret of the current revealer is needed for. -/
def useSecret (env : Env) (c : Ctx) (s : State) (g : Game) (curr : UInt64 × Offer)
    (source : Checksum256) (currReveal prevReveal : Player) : Result State := do
  eosioAssert .reveal currReveal.reveal.isZero "player already revealed"
  if ¬ prevReveal.reveal.isZero then chooseWinner env s curr.2.gameid g curr prevReveal
  else pure { s with games := s.games.set curr.2.gameid (g.revealed currReveal source c.now) }

def reveal (env : Env) (c : Ctx) (s : State) (commitment source : Checksum256) : Result State := do
  eosioAssert .crypto (env.sha256 source.hash = commitment) "hash mismatch"
  let curr ← getRow .reveal (s.findOffer commitment) "offer not found"
  eosioAssert .reveal (0 < curr.2.gameid) "unable to reveal"
  let game ← getRow .deletedObject (s.games.find curr.2.gameid) ""
  if game.player1.commitment = commitment then
    useSecret env c s game curr source game.player1 game.player2
  else useSecret env c s game curr source game.player2 game.player1

/-- The claim of the side `winner` against the side `loser`. -/
def payClaim (s : State) (gameid : UInt64) (g : Game) (winner loser unrevealed : Player) :
    Result State := do
  eosioAssert .claimexpired unrevealed.reveal.isZero "game error"
  let winnerOffer ← getRow .deletedObject (s.findOffer winner.commitment) ""
  let loserOffer ← getRow .deletedObject (s.findOffer loser.commitment) ""
  payAndClean s gameid g winnerOffer loserOffer

def claimexpired (c : Ctx) (s : State) (gameid : UInt64) : Result State := do
  let game ← getRow .claimexpired (s.games.find gameid) "game not found"
  eosioAssert .claimexpired (game.deadline ≠ 0 ∧ game.deadline < c.now) "game not expired"
  if ¬ game.player1.reveal.isZero then
    payClaim s gameid game game.player1 game.player2 game.player2
  -- the source asserts here what the branch has just tested
  else payClaim s gameid game game.player2 game.player1 game.player1

/-! ### Balances -/

def deposit (env : Env) (s : State) (from_ : AccountName) (quantity : Asset) :
    Result (State × List Token.Inline) := do
  eosioAssert .deposit quantity.isValid "invalid quantity"
  eosioAssert .deposit (0 < quantity.amount) "must deposit positive quantity"
  let acnt := (s.accounts.find from_).getD ⟨Asset.zero, 0, 0⟩
  let eosBalance ← acnt.eosBalance.add quantity
  pure ({ s with accounts := s.accounts.set from_ { acnt with eosBalance } },
    [⟨[from_], .transfer from_ env.self quantity ""⟩])

def withdraw (env : Env) (c : Ctx) (s : State) (to_ : AccountName) (quantity : Asset) :
    Result (State × List Token.Inline) := do
  requireAuth c to_
  eosioAssert .withdraw quantity.isValid "invalid quantity"
  eosioAssert .withdraw (0 < quantity.amount) "must withdraw positive quantity"
  let acnt ← getRow .withdraw (s.accounts.find to_) "unknown account"
  let covered ← acnt.eosBalance.ge quantity
  eosioAssert .withdraw covered "insufficient balance"
  let eosBalance ← acnt.eosBalance.sub quantity
  let acnt := { acnt with eosBalance }
  pure ({ s with accounts := if acnt.isEmpty then s.accounts.erase to_ else s.accounts.set to_ acnt },
    [⟨[env.self], .transfer env.self to_ quantity ""⟩])

/-! ### The chain -/

inductive Action
  | offerbet (bet : Asset) (player : AccountName) (commitment : Checksum256)
  | canceloffer (commitment : Checksum256)
  | reveal (commitment source : Checksum256)
  | claimexpired (gameid : UInt64)
  | deposit (from_ : AccountName) (quantity : Asset)
  | withdraw (to_ : AccountName) (quantity : Asset)
  deriving DecidableEq

def apply (env : Env) (c : Ctx) (s : State) : Action → Result (State × List Token.Inline)
  | .offerbet bet player commitment => (·, []) <$> offerbet c s bet player commitment
  | .canceloffer commitment => (·, []) <$> canceloffer c s commitment
  | .reveal commitment source => (·, []) <$> reveal env c s commitment source
  | .claimexpired gameid => (·, []) <$> claimexpired c s gameid
  | .deposit from_ quantity => deposit env s from_ quantity
  | .withdraw to_ quantity => withdraw env c s to_ quantity

/-- The token contract and the dice contract. -/
structure Chain where
  token : Token.State
  dice : State

inductive Call
  | token (action : Token.Action)
  | dice (action : Action)
  deriving DecidableEq

/-- An action with what it sees of the chain, `codeFor` being the accounts whose
active permission the code of the dice contract satisfies. -/
structure Event where
  ctx : Ctx
  codeFor : List AccountName
  call : Call

/-- An inline action carries the permissions that the contract declares, if its
code satisfies them. -/
def execInline (e : Event) (t : Token.State) (i : Token.Inline) : Result Token.State := do
  i.auth.forM (requireAuth { e.ctx with auth := e.codeFor })
  Token.exec { e.ctx with auth := i.auth } t i.action

/-- An action with the inline actions it sends; a failure undoes all of it. -/
def step (env : Env) (s : Chain) (e : Event) : Result Chain :=
  match e.call with
  | .token action => do
    let token ← Token.exec e.ctx s.token action
    pure { s with token }
  | .dice action => do
    let r ← apply env e.ctx s.dice action
    let token ← r.2.foldlM (execInline e) s.token
    pure { token, dice := r.1 }

end Xidata.Dice
