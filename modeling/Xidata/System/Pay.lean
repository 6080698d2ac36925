import Xidata.System.ProducerPay

/-!
The pay of producers over the integers: the actions about producers with
counters, times and buckets that do not wrap around, and the token as what the
accounts hold.  The floating-point results, the inflation since the last fill
and a producer's part of the per-vote bucket, come with the claim as any natural
numbers.  What a block does to the schedule and the auctions is left out here.
-/

namespace Xidata.System.Pay

open Eosiolib

/-! ### The token -/

structure Token where
  supply : ℤ
  maxSupply : ℤ
  issuer : AccountName
  balance : AccountName → ℤ

def Token.add (t : Token) (owner : AccountName) (value : ℤ) : Token :=
  { t with balance := Function.update t.balance owner (t.balance owner + value) }

inductive TokenAction
  | issue (to_ : AccountName) (quantity : ℤ) (memo : String)
  | transfer (from_ to_ : AccountName) (quantity : ℤ) (memo : String)

structure Inline where
  auth : List AccountName
  action : TokenAction

def transfer (c : Ctx) (t : Token) (from_ to_ : AccountName) (quantity : ℤ) (memo : String) :
    Result Token := do
  eosioAssert .transfer (from_ ≠ to_) "cannot transfer to self"
  requireAuth c from_
  eosioAssert .transfer (c.isAccount to_) "to account does not exist"
  eosioAssert .transfer (0 < quantity) "must transfer positive quantity"
  eosioAssert .transfer (memo.utf8ByteSize ≤ 256) "memo has more than 256 bytes"
  eosioAssert .subBalance (quantity ≤ t.balance from_) "overdrawn balance"
  pure ((t.add from_ (-quantity)).add to_ quantity)

def issue (c : Ctx) (t : Token) (to_ : AccountName) (quantity : ℤ) (memo : String) :
    Result Token := do
  eosioAssert .issue (memo.utf8ByteSize ≤ 256) "memo has more than 256 bytes"
  requireAuth c t.issuer
  eosioAssert .issue (0 < quantity) "must issue positive quantity"
  eosioAssert .issue (quantity ≤ t.maxSupply - t.supply) "quantity exceeds available supply"
  let t := { t.add t.issuer quantity with supply := t.supply + quantity }
  if to_ ≠ t.issuer then transfer { c with auth := [t.issuer] } t t.issuer to_ quantity memo
  else pure t

def execInline (c : Ctx) (t : Token) (i : Inline) : Result Token :=
  match i.action with
  | .issue to_ quantity memo => issue { c with auth := i.auth } t to_ quantity memo
  | .transfer from_ to_ quantity memo => transfer { c with auth := i.auth } t from_ to_ quantity memo

def inlineTransfer (from_ to_ : AccountName) (quantity : ℤ) (memo : String) : Inline :=
  ⟨[from_], .transfer from_ to_ quantity memo⟩

/-! ### The producers -/

structure Producer where
  producerKey : PublicKey
  isActive : Bool := true
  url : String
  unpaidBlocks : ℤ := 0
  lastClaimTime : ℤ := 0
  location : UInt16 := 0
  deriving DecidableEq

def Producer.deactivate (p : Producer) : Producer :=
  { p with producerKey := .default, isActive := false }

structure State where
  producers : OrderedTable AccountName Producer := .empty
  lastPervoteBucketFill : ℤ := 0
  pervoteBucket : ℤ := 0
  perblockBucket : ℤ := 0
  totalUnpaidBlocks : ℤ := 0
  totalActivatedStake : ℤ := 0
  totalProducerVoteWeight : ℚ := 0

def regproducer (c : Ctx) (s : State) (producer : AccountName) (producerKey : PublicKey)
    (url : String) (location : UInt16) : Result State := do
  eosioAssert .regproducer (url.utf8ByteSize < 512) "url too long"
  eosioAssert .regproducer (producerKey ≠ .default) "public key should not be the default value"
  requireAuth c producer
  let info : Producer := match s.producers.find producer with
    | some info => { info with producerKey, isActive := true, url, location }
    | none => { producerKey, isActive := true, url, location }
  pure { s with producers := s.producers.set producer info }

def unregprod (c : Ctx) (s : State) (producer : AccountName) : Result State := do
  requireAuth c producer
  let info ← getRow .multiIndex (s.producers.find producer) "producer not found"
  pure { s with producers := s.producers.set producer info.deactivate }

def rmvproducer (c : Ctx) (s : State) (producer : AccountName) : Result State := do
  requireAuth c self
  let info ← getRow .multiIndex (s.producers.find producer) "producer not found"
  pure { s with producers := s.producers.set producer info.deactivate }

/-! ### Blocks and claims -/

def startPervoteFill (c : Ctx) (s : State) : State :=
  if s.lastPervoteBucketFill = 0 then { s with lastPervoteBucketFill := c.currentTime.toNat } else s

def countBlock (s : State) (producer : AccountName) : State :=
  match s.producers.find producer with
  | some info => { s with
      totalUnpaidBlocks := s.totalUnpaidBlocks + 1
      producers := s.producers.set producer { info with unpaidBlocks := info.unpaidBlocks + 1 } }
  | none => s

def onblock (c : Ctx) (s : State) (producer : AccountName) : Result State := do
  requireAuth c self
  if s.totalActivatedStake < minActivatedStake.toInt then pure s
  else pure (countBlock (startPervoteFill c s) producer)

def fillBuckets (c : Ctx) (s : State) (newTokens : ℕ) : State × List Inline :=
  if 0 < c.currentTime.toNat - s.lastPervoteBucketFill ∧ 0 < s.lastPervoteBucketFill then
    let toProducers := (newTokens : ℤ).tdiv 5
    let toSavings := newTokens - toProducers
    let toPerBlockPay := toProducers.tdiv 4
    let toPerVotePay := toProducers - toPerBlockPay
    ({ s with
        pervoteBucket := s.pervoteBucket + toPerVotePay
        perblockBucket := s.perblockBucket + toPerBlockPay
        lastPervoteBucketFill := c.currentTime.toNat },
      [⟨[self], .issue self newTokens "issue tokens for producer pay and savings"⟩,
        inlineTransfer self savingAccount toSavings "unallocated inflation",
        inlineTransfer self bpayAccount toPerBlockPay "fund per-block bucket",
        inlineTransfer self vpayAccount toPerVotePay "fund per-vote bucket"])
  else (s, [])

def payFrom (bucket owner : AccountName) (amount : ℤ) (memo : String) : List Inline :=
  if 0 < amount then [inlineTransfer bucket owner amount memo] else []

/-- What the owner is paid from the per-block bucket. -/
def State.perBlockPay (s : State) (prod : Producer) : ℤ :=
  if 0 < s.totalUnpaidBlocks then
    (s.perblockBucket * prod.unpaidBlocks).tdiv s.totalUnpaidBlocks
  else 0

/-- What the owner is paid from the per-vote bucket. -/
def State.perVotePay (s : State) (share : ℕ) : ℤ :=
  let pay : ℤ := if 0 < s.totalProducerVoteWeight then share else 0
  if pay < minPervoteDailyPay.toInt then 0 else pay

def claimrewards (c : Ctx) (s : State) (owner : AccountName) (newTokens share : ℕ) :
    Result (State × List Inline) := do
  requireAuth c owner
  let prod ← getRow .multiIndex (s.producers.find owner) "unable to find key"
  eosioAssert .claimrewards prod.isActive "producer does not have an active key"
  eosioAssert .claimrewards (minActivatedStake.toInt ≤ s.totalActivatedStake)
    "cannot claim rewards until the chain is activated (at least 15% of all tokens participate in voting)"
  eosioAssert .claimrewards (usecondsPerDay.toNat < c.currentTime.toNat - prod.lastClaimTime)
    "already claimed rewards within past day"
  let filled := fillBuckets c s newTokens
  let perBlockPay := filled.1.perBlockPay prod
  let perVotePay := filled.1.perVotePay share
  pure ({ filled.1 with
      pervoteBucket := filled.1.pervoteBucket - perVotePay
      perblockBucket := filled.1.perblockBucket - perBlockPay
      totalUnpaidBlocks := filled.1.totalUnpaidBlocks - prod.unpaidBlocks
      producers := filled.1.producers.set owner
        { prod with lastClaimTime := c.currentTime.toNat, unpaidBlocks := 0 } },
    filled.2 ++ payFrom bpayAccount owner perBlockPay "producer block pay" ++
      payFrom vpayAccount owner perVotePay "producer vote pay")

/-! ### Runs -/

inductive Action
  | onblock (producer : AccountName)
  | regproducer (producer : AccountName) (producerKey : PublicKey) (url : String)
      (location : UInt16)
  | unregprod (producer : AccountName)
  | rmvproducer (producer : AccountName)
  /-- `newTokens` and `share` are the results of the floating-point expressions. -/
  | claimrewards (owner : AccountName) (newTokens share : ℕ)

structure Event where
  ctx : Ctx
  action : Action

structure Chain where
  system : State := {}
  token : Token

def apply (c : Ctx) (s : State) : Action → Result (State × List Inline)
  | .onblock producer => (·, []) <$> onblock c s producer
  | .regproducer producer producerKey url location =>
      (·, []) <$> regproducer c s producer producerKey url location
  | .unregprod producer => (·, []) <$> unregprod c s producer
  | .rmvproducer producer => (·, []) <$> rmvproducer c s producer
  | .claimrewards owner newTokens share => claimrewards c s owner newTokens share

/-- An action with the inline actions it sends; it fails when one of them does. -/
def exec (s : Chain) (e : Event) : Result Chain := do
  let r ← apply e.ctx s.system e.action
  let token ← r.2.foldlM (execInline e.ctx) s.token
  pure ⟨r.1, token⟩

def run (s : Chain) (es : List Event) : Chain := Rollback.run exec s es

end Xidata.System.Pay
