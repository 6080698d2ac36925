import Mathlib.Algebra.Order.Ring.Rat
import Xidata.Library.OrderedTable
import Xidata.Eosiolib.Asset
import Xidata.Token.Contract

/-!
The tables of the system contract, what it hands to the chain, and the parts
of its environment that are not contract code: the floating-point expressions,
which enter only through their results, and the answer to a proposed schedule.

Vote weights are `double` in the contract and exact rationals here.
-/

namespace Xidata.System

open Eosiolib

/-- The account the contract is deployed on. -/
def self : AccountName := N "eosio"

/-! ### Rows -/

structure UserResources where
  owner : AccountName
  netWeight : Asset := .zero
  cpuWeight : Asset := .zero
  ramBytes : Int64 := 0
  deriving DecidableEq

/-- Every user `from_` has a scope that uses every recipient `to_` as the primary key. -/
structure DelegatedBandwidth where
  from_ : AccountName
  to_ : AccountName
  netWeight : Asset
  cpuWeight : Asset
  deriving DecidableEq

structure RefundRequest where
  owner : AccountName
  requestTime : UInt32
  netAmount : Asset := .zero
  cpuAmount : Asset := .zero
  deriving DecidableEq

structure VoterInfo where
  owner : AccountName
  /-- The proxy set by the voter, `0` for none. -/
  proxy : AccountName := 0
  producers : List AccountName := []
  staked : Int64 := 0
  lastVoteWeight : ℚ := 0
  proxiedVoteWeight : ℚ := 0
  isProxy : Bool := false
  deriving DecidableEq

structure PublicKey where
  type : UInt32
  data : List UInt8
  deriving DecidableEq

/-- `public_key()`. -/
def PublicKey.default : PublicKey := ⟨0, List.replicate 33 0⟩

structure ProducerInfo where
  owner : AccountName
  totalVotes : ℚ := 0
  producerKey : PublicKey
  isActive : Bool := true
  url : String
  unpaidBlocks : UInt32 := 0
  lastClaimTime : UInt64 := 0
  location : UInt16 := 0
  deriving DecidableEq

namespace ProducerInfo

def byVotes (p : ProducerInfo) : ℚ := if p.isActive then -p.totalVotes else p.totalVotes

def deactivate (p : ProducerInfo) : ProducerInfo :=
  { p with producerKey := .default, isActive := false }

end ProducerInfo

structure NameBid where
  newname : AccountName
  highBidder : AccountName
  /-- Negative: closed auction waiting to be claimed. -/
  highBid : Int64
  lastBidTime : UInt64
  deriving DecidableEq

def NameBid.byHighBid (b : NameBid) : UInt64 := (-b.highBid).toUInt64

/-- The connectors' weights are constants of the pricing formula and are left
to the environment. -/
structure ExchangeState where
  supply : Asset
  base : Asset
  quote : Asset
  deriving DecidableEq

structure GlobalState where
  maxRamSize : UInt64 := 64 * 1024 * 1024 * 1024
  totalRamBytesReserved : UInt64 := 0
  totalRamStake : Int64 := 0
  lastProducerScheduleUpdate : UInt32 := 0
  lastPervoteBucketFill : UInt64 := 0
  pervoteBucket : Int64 := 0
  perblockBucket : Int64 := 0
  totalUnpaidBlocks : UInt32 := 0
  totalActivatedStake : Int64 := 0
  threshActivatedStakeTime : UInt64 := 0
  lastProducerScheduleSize : UInt16 := 0
  totalProducerVoteWeight : ℚ := 0
  lastNameClose : UInt32 := 0
  deriving DecidableEq

def GlobalState.freeRam (g : GlobalState) : UInt64 := g.maxRamSize - g.totalRamBytesReserved

/-! ### What the chain holds for the contract -/

/-- The arguments of a `set_resource_limits` call. -/
structure ResourceLimits where
  ramBytes : Int64
  netWeight : Int64
  cpuWeight : Int64
  deriving DecidableEq

/-- A deferred transaction with the one action `refund(owner)`. -/
structure DeferredRefund where
  owner : AccountName
  delaySec : UInt32
  deriving DecidableEq

structure State where
  voters : OrderedTable AccountName VoterInfo := .empty
  producers : OrderedTable AccountName ProducerInfo := .empty
  global : GlobalState := {}
  /-- The row `S(4,RAMCORE)` of the table `rammarket`, the only one there is. -/
  rammarket : Option ExchangeState := none
  userres : OrderedTable AccountName UserResources := .empty
  delband : OrderedTable Scoped DelegatedBandwidth := .empty
  refunds : OrderedTable AccountName RefundRequest := .empty
  namebids : OrderedTable AccountName NameBid := .empty
  /-- The last `set_resource_limits` call for each account. -/
  limits : OrderedTable AccountName ResourceLimits := .empty
  /-- The pending deferred transactions of the contract, by sender id. -/
  deferred : OrderedTable AccountName DeferredRefund := .empty
  /-- Not in the source: every addition made to `totalActivatedStake`, latest
  first.  No function reads it. -/
  activations : List (AccountName × Int64) := []
  /-- Not in the source: how many non-zero changes `propagateWeightChange` has
  found too small to pass on.  No function reads it. -/
  skipped : ℕ := 0

/-! ### The environment -/

/-- Results of code outside the contract. -/
structure Env where
  /-- `2 ^ (weeks / 52)` at `now()`: the factor of `stake2vote`. -/
  voteFactor : UInt32 → ℚ
  /-- What `b1` may have claimed by `now()`. -/
  claimable : UInt32 → Int64
  /-- The truncated price of `convert_to_exchange`, from `supply.amount`, the
  connector balance with the input added, and the input. -/
  issued : Int64 → Int64 → Int64 → Int64
  /-- The truncated price of `convert_from_exchange`, from `supply.amount` less
  the input, the connector balance, and the input. -/
  paid : Int64 → Int64 → Int64 → Int64
  /-- The answer to `set_proposed_producers` at a block time: negative when
  the proposal is refused. -/
  setProposedProducers : UInt64 → List (AccountName × PublicKey) → Int64
  /-- The inflation since the last fill, from the supply and the time passed. -/
  newTokens : Int64 → UInt64 → Int64
  /-- A producer's part of the per-vote bucket, from the bucket, the votes of
  the producer and the total. -/
  perVoteShare : Int64 → ℚ → ℚ → Int64

end Xidata.System
