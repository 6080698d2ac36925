import Xidata.System.Governance

/-!
What happens with every block, and the pay of producers.
-/

namespace Xidata.System

open Eosiolib

variable (env : Env)

def minPervoteDailyPay : Int64 := 1000000
def blocksPerDay : UInt32 := 2 * 24 * 3600
def usecondsPerDay : UInt64 := 24 * 3600 * 1000000

def bpayAccount : AccountName := N "eosio.bpay"
def vpayAccount : AccountName := N "eosio.vpay"
def savingAccount : AccountName := N "eosio.saving"

/-- The per-vote bucket is filled from the first block after activation on. -/
def startPervoteFill (c : Ctx) (s : State) : State :=
  if s.global.lastPervoteBucketFill = 0 then
    { s with global := { s.global with lastPervoteBucketFill := c.currentTime } }
  else s

/-- A block of a registered producer is counted as unpaid. -/
def countBlock (s : State) (producer : AccountName) : State :=
  match s.producers.find producer with
  | some info => { s with
      global := { s.global with totalUnpaidBlocks := s.global.totalUnpaidBlocks + 1 }
      producers := s.producers.set producer
        { info with unpaidBlocks := info.unpaidBlocks + 1 } }
  | none => s

/-- The first row of the index `highbid` is closed, if it is an open auction
and the time has come. -/
def closeAuction (c : Ctx) (s : State) (timestamp : UInt32) : State :=
  match s.namebids.index NameBid.byHighBid with
  | [] => s
  | (name, highest) :: _ =>
    if 0 < highest.highBid ∧
        highest.lastBidTime < c.currentTime - usecondsPerDay ∧
        0 < s.global.threshActivatedStakeTime ∧
        14 * usecondsPerDay < c.currentTime - s.global.threshActivatedStakeTime then
      { s with
        global := { s.global with lastNameClose := timestamp }
        namebids := s.namebids.set name { highest with highBid := -highest.highBid } }
    else s

def onblock (c : Ctx) (s : State) (timestamp : UInt32) (producer : AccountName) :
    Result State := do
  requireAuth c self
  if s.global.totalActivatedStake < minActivatedStake then pure s
  else
    let s := countBlock (startPervoteFill c s) producer
    if 120 < timestamp - s.global.lastProducerScheduleUpdate then
      let s := updateElectedProducers env c s timestamp
      if blocksPerDay < timestamp - s.global.lastNameClose then
        pure (closeAuction c s timestamp)
      else pure s
    else pure s

/-- The inflation since the last fill goes to the savings and the two buckets. -/
def fillBuckets (c : Ctx) (token : Token.State) (s : State) :
    Result (State × List Token.Inline) := do
  let tokenSupply ← Token.getSupply token coreSymbol.name
  let usecsSinceLastFill := c.currentTime - s.global.lastPervoteBucketFill
  if 0 < usecsSinceLastFill ∧ 0 < s.global.lastPervoteBucketFill then do
    let newTokens := env.newTokens tokenSupply.amount usecsSinceLastFill
    let toProducers := newTokens / 5
    let toSavings := newTokens - toProducers
    let toPerBlockPay := toProducers / 4
    let toPerVotePay := toProducers - toPerBlockPay
    let issued ← Asset.make newTokens coreSymbol
    let savings ← Asset.make toSavings coreSymbol
    let perBlock ← Asset.make toPerBlockPay coreSymbol
    let perVote ← Asset.make toPerVotePay coreSymbol
    pure ({ s with
        global := { s.global with
          pervoteBucket := s.global.pervoteBucket + toPerVotePay
          perblockBucket := s.global.perblockBucket + toPerBlockPay
          lastPervoteBucketFill := c.currentTime } },
      [⟨[self], .issue self issued "issue tokens for producer pay and savings"⟩,
        inlineTransfer self savingAccount savings "unallocated inflation",
        inlineTransfer self bpayAccount perBlock "fund per-block bucket",
        inlineTransfer self vpayAccount perVote "fund per-vote bucket"])
  else pure (s, [])

/-- A payment that is sent only when it is positive. -/
def payFrom (bucket owner : AccountName) (amount : Int64) (memo : String) :
    Result (List Token.Inline) :=
  if 0 < amount then do
    let pay ← Asset.make amount coreSymbol
    pure [inlineTransfer bucket owner pay memo]
  else pure []

def claimrewards (c : Ctx) (token : Token.State) (s : State) (owner : AccountName) :
    Result (State × List Token.Inline) := do
  requireAuth c owner
  let prod ← getRow .multiIndex (s.producers.find owner) "unable to find key"
  eosioAssert .claimrewards prod.isActive "producer does not have an active key"
  eosioAssert .claimrewards (minActivatedStake ≤ s.global.totalActivatedStake)
    "cannot claim rewards until the chain is activated (at least 15% of all tokens participate in voting)"
  eosioAssert .claimrewards (usecondsPerDay < c.currentTime - prod.lastClaimTime)
    "already claimed rewards within past day"
  let filled ← fillBuckets env c token s
  let g := filled.1.global
  let perBlockPay := if 0 < g.totalUnpaidBlocks then
      (g.perblockBucket * prod.unpaidBlocks.toUInt64.toInt64) / g.totalUnpaidBlocks.toUInt64.toInt64
    else 0
  let share := if 0 < g.totalProducerVoteWeight then
      env.perVoteShare g.pervoteBucket prod.totalVotes g.totalProducerVoteWeight
    else 0
  let perVotePay := if share < minPervoteDailyPay then 0 else share
  let blockPay ← payFrom bpayAccount owner perBlockPay "producer block pay"
  let votePay ← payFrom vpayAccount owner perVotePay "producer vote pay"
  pure ({ filled.1 with
      global := { g with
        pervoteBucket := g.pervoteBucket - perVotePay
        perblockBucket := g.perblockBucket - perBlockPay
        totalUnpaidBlocks := g.totalUnpaidBlocks - prod.unpaidBlocks }
      producers := filled.1.producers.set owner
        { prod with lastClaimTime := c.currentTime, unpaidBlocks := 0 } },
    filled.2 ++ blockPay ++ votePay)

end Xidata.System
