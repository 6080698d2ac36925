import Xidata.System.Exchange
import Xidata.System.Voting

/-!
Staking for bandwidth and buying RAM.  `changebw` is cut along the source's
own blocks: the delegation row, the receiver's totals, the pending refund with
its deferred transaction, and the voter's stake.
-/

namespace Xidata.System

open Eosiolib

variable (env : Env)

def refundDelay : UInt32 := 3 * 24 * 3600

def stakeAccount : AccountName := N "eosio.stake"
def ramAccount : AccountName := N "eosio.ram"
def ramfeeAccount : AccountName := N "eosio.ramfee"

/-- An inline transfer sent with the authority of the account that pays. -/
def inlineTransfer (from_ to_ : AccountName) (quantity : Asset) (memo : String) : Token.Inline :=
  ⟨[from_], .transfer from_ to_ quantity memo⟩

/-! ### RAM -/

/-- The fee of half a percent, rounded up. -/
def ramFee (amount : Int64) : Int64 := (amount + 199) / 200

def UserResources.limits (res : UserResources) : ResourceLimits :=
  ⟨res.ramBytes, res.netWeight.amount, res.cpuWeight.amount⟩

/-- What both sides of a RAM trade write: the market, the two counters, and the
resources of `account` with the limits set from them. -/
def bookRam (s : State) (market : ExchangeState) (totalRamBytesReserved : UInt64)
    (totalRamStake : Int64) (account : AccountName) (res : UserResources) : State :=
  { s with
    rammarket := some market
    global := { s.global with totalRamBytesReserved, totalRamStake }
    userres := s.userres.set account res
    limits := s.limits.set res.owner res.limits }

/-- The resources of `receiver` with `bytesOut` more bytes of RAM. -/
def boughtRam (s : State) (receiver : AccountName) (bytesOut : Int64) : UserResources :=
  match s.userres.find receiver with
  | none => { owner := receiver, ramBytes := bytesOut }
  | some res => { res with ramBytes := res.ramBytes + bytesOut }

def buyram (c : Ctx) (s : State) (payer receiver : AccountName) (quant : Asset) :
    Result (State × List Token.Inline) := do
  requireAuth c payer
  eosioAssert .buyram (0 < quant.amount) "must purchase a positive amount"
  let fee := { quant with amount := ramFee quant.amount }
  let quantAfterFee := { quant with amount := quant.amount - fee.amount }
  let market ← getRow .buyram s.rammarket "ram market does not exist"
  let r ← market.convert env quantAfterFee ramSymbol
  let bytesOut := r.2.amount
  eosioAssert .buyram (0 < bytesOut) "must reserve a positive amount"
  pure (bookRam s r.1 (s.global.totalRamBytesReserved + bytesOut.toUInt64)
      (s.global.totalRamStake + quantAfterFee.amount) receiver (boughtRam s receiver bytesOut),
    inlineTransfer payer ramAccount quantAfterFee "buy ram" ::
      if 0 < fee.amount then [inlineTransfer payer ramfeeAccount fee "ram fee"] else [])

/-- The price is asked of a copy of the market row. -/
def buyrambytes (c : Ctx) (s : State) (payer receiver : AccountName) (bytes : UInt32) :
    Result (State × List Token.Inline) := do
  let tmp ← getRow .multiIndex s.rammarket "dereferenced end iterator"
  let in_ ← Asset.make bytes.toUInt64.toInt64 ramSymbol
  let r ← tmp.convert env in_ coreSymbol
  buyram env c s payer receiver r.2

def sellram (c : Ctx) (s : State) (account : AccountName) (bytes : Int64) :
    Result (State × List Token.Inline) := do
  requireAuth c account
  eosioAssert .sellram (0 < bytes) "cannot sell negative byte"
  let res ← getRow .sellram (s.userres.find account) "no resource row"
  eosioAssert .sellram (bytes ≤ res.ramBytes) "insufficient quota"
  let market ← getRow .multiIndex s.rammarket "cannot pass end iterator to modify"
  let in_ ← Asset.make bytes ramSymbol
  let r ← market.convert env in_ coreSymbol
  let tokensOut := r.2
  eosioAssert .sellram (1 < tokensOut.amount) "token amount received from selling ram is too low"
  let totalRamStake := s.global.totalRamStake - tokensOut.amount
  eosioAssert .sellram (0 ≤ totalRamStake)
    "error, attempt to unstake more tokens than previously staked"
  let fee := ramFee tokensOut.amount
  let feeTransfer ← (if 0 < fee then do
      let feeAsset ← Asset.make fee coreSymbol
      pure [inlineTransfer account ramfeeAccount feeAsset "sell ram fee"]
    else pure [])
  pure (bookRam s r.1 (s.global.totalRamBytesReserved - bytes.toUInt64) totalRamStake account
      { res with ramBytes := res.ramBytes - bytes },
    inlineTransfer ramAccount account tokensOut "sell ram" :: feeTransfer)

/-! ### Bandwidth -/

/-- The two weights of a changed row may not be negative; whether both are zero. -/
def checkWeights (netWeight cpuWeight : Asset) (netMsg cpuMsg : String) : Result Bool := do
  let netOk ← Asset.zero.le netWeight
  eosioAssert .changebw netOk netMsg
  let cpuOk ← Asset.zero.le cpuWeight
  eosioAssert .changebw cpuOk cpuMsg
  let netZero ← netWeight.eq .zero
  let cpuZero ← cpuWeight.eq .zero
  pure (netZero && cpuZero)

def delbandRow (t : OrderedTable Scoped DelegatedBandwidth) (from_ receiver : AccountName)
    (stakeNetDelta stakeCpuDelta : Asset) : Result DelegatedBandwidth :=
  match t.find ⟨from_, receiver⟩ with
  | none => pure ⟨from_, receiver, stakeNetDelta, stakeCpuDelta⟩
  | some dbo => do
    let netWeight ← dbo.netWeight.add stakeNetDelta
    let cpuWeight ← dbo.cpuWeight.add stakeCpuDelta
    pure { dbo with netWeight, cpuWeight }

/-- Update the stake delegated from `from_` to `receiver`. -/
def updateDelband (t : OrderedTable Scoped DelegatedBandwidth) (from_ receiver : AccountName)
    (stakeNetDelta stakeCpuDelta : Asset) : Result (OrderedTable Scoped DelegatedBandwidth) := do
  let row ← delbandRow t from_ receiver stakeNetDelta stakeCpuDelta
  let empty ← checkWeights row.netWeight row.cpuWeight
    "insufficient staked net bandwidth" "insufficient staked cpu bandwidth"
  pure (if empty then t.erase ⟨from_, receiver⟩ else t.set ⟨from_, receiver⟩ row)

def totalsRow (t : OrderedTable AccountName UserResources) (receiver : AccountName)
    (stakeNetDelta stakeCpuDelta : Asset) : Result UserResources :=
  match t.find receiver with
  | none => pure { owner := receiver, netWeight := stakeNetDelta, cpuWeight := stakeCpuDelta }
  | some tot => do
    let netWeight ← tot.netWeight.add stakeNetDelta
    let cpuWeight ← tot.cpuWeight.add stakeCpuDelta
    pure { tot with netWeight, cpuWeight }

/-- Update the totals of `receiver`, and the limits set from them.  The limits
are set before the row is erased; no comparison can fail in between. -/
def updateTotals (t : OrderedTable AccountName UserResources) (receiver : AccountName)
    (stakeNetDelta stakeCpuDelta : Asset) :
    Result (OrderedTable AccountName UserResources × ResourceLimits) := do
  let row ← totalsRow t receiver stakeNetDelta stakeCpuDelta
  let empty ← checkWeights row.netWeight row.cpuWeight
    "insufficient staked total net bandwidth" "insufficient staked total cpu bandwidth"
  pure (if empty && row.ramBytes == 0 then t.erase receiver else t.set receiver row, row.limits)

/-- One amount of a pending refund against one delta: the new amount of the
refund and what is left of the delta. -/
def settleRefund (amount delta : Asset) : Result (Asset × Asset) := do
  let rest ← amount.sub delta
  let below ← rest.lt .zero
  pure (if below then (.zero, rest.neg) else (rest, .zero))

/-- The refunds table after the refund of `from_` has been updated, whether a
deferred transaction is needed, and what is left of the two deltas. -/
def updateRefund (c : Ctx) (t : OrderedTable AccountName RefundRequest) (from_ : AccountName)
    (netBalance cpuBalance : Asset) :
    Result (OrderedTable AccountName RefundRequest × Bool × Asset × Asset) := do
  let netBelow ← netBalance.lt .zero
  let cpuBelow ← cpuBalance.lt .zero
  match t.find from_ with
  | some req => do
    let requestTime := if netBelow || cpuBelow then c.now else req.requestTime
    let net ← settleRefund req.netAmount netBalance
    let cpu ← settleRefund req.cpuAmount cpuBalance
    let netOk ← Asset.zero.le net.1
    eosioAssert .changebw netOk "negative net refund amount"
    let cpuOk ← Asset.zero.le cpu.1
    eosioAssert .changebw cpuOk "negative cpu refund amount"
    let netZero ← net.1.eq .zero
    let cpuZero ← cpu.1.eq .zero
    if netZero && cpuZero then pure (t.erase from_, false, net.2, cpu.2)
    else pure (t.set from_ { req with requestTime, netAmount := net.1, cpuAmount := cpu.1 },
      true, net.2, cpu.2)
  | none =>
    if netBelow || cpuBelow then
      pure (t.set from_
          { owner := from_
            requestTime := c.now
            netAmount := if netBelow then netBalance.neg else .zero
            cpuAmount := if cpuBelow then cpuBalance.neg else .zero },
        true, if netBelow then .zero else netBalance, if cpuBelow then .zero else cpuBalance)
    else pure (t, false, netBalance, cpuBalance)

/-- Create a refund or update the existing one, keep its deferred transaction,
and collect what the refund does not cover from `source`. -/
def changeRefund (c : Ctx) (s : State) (source from_ receiver : AccountName)
    (stakeNetDelta stakeCpuDelta : Asset) (transfer : Bool) :
    Result (State × List Token.Inline) := do
  let isUndelegating := stakeNetDelta.amount + stakeCpuDelta.amount < 0
  let isDelegatingToSelf := ¬ transfer ∧ from_ = receiver
  let r ← (if isDelegatingToSelf ∨ isUndelegating then
      updateRefund c s.refunds from_ stakeNetDelta stakeCpuDelta
    else pure (s.refunds, false, stakeNetDelta, stakeCpuDelta))
  let transferAmount ← r.2.2.1.add r.2.2.2
  let positive ← Asset.zero.lt transferAmount
  pure ({ s with
      refunds := r.1
      deferred :=
        if r.2.1 then s.deferred.set from_ ⟨from_, refundDelay⟩ else s.deferred.erase from_ },
    if positive then [inlineTransfer source stakeAccount transferAmount "stake bandwidth"] else [])

def maxClaimable : Int64 := 1000000000000

def validateB1Vesting (c : Ctx) (stake : Int64) : Result Unit :=
  eosioAssert .validateB1Vesting (maxClaimable - env.claimable c.now ≤ stake)
    "b1 can only claim their tokens over 10 years"

/-- The voter row of `from_` with `totalUpdate` more staked. -/
def restakedVoter (s : State) (from_ : AccountName) (totalUpdate : Int64) : VoterInfo :=
  match s.voters.find from_ with
  | none => { owner := from_, staked := totalUpdate }
  | some v => { v with staked := v.staked + totalUpdate }

/-- Cast the vote of a voter again, if it has one. -/
def recastVote (c : Ctx) (s : State) (name : AccountName) (voter : VoterInfo) : Result State :=
  if voter.producers ≠ [] ∨ voter.proxy ≠ 0 then
    updateVotes env c s name voter.proxy voter.producers false
  else pure s

/-- Update the voting power of `from_`. -/
def changeVoterStake (c : Ctx) (s : State) (from_ : AccountName)
    (stakeNetDelta stakeCpuDelta : Asset) : Result State := do
  let totalUpdate ← stakeNetDelta.add stakeCpuDelta
  let voter := restakedVoter s from_ totalUpdate.amount
  eosioAssert .changebw (0 ≤ voter.staked) "stake for voting cannot be negative"
  (if from_ = N "b1" then validateB1Vesting env c voter.staked else pure ())
  recastVote env c { s with voters := s.voters.set from_ voter } from_ voter

def changebw (c : Ctx) (s : State) (source receiver : AccountName)
    (stakeNetDelta stakeCpuDelta : Asset) (transfer : Bool) :
    Result (State × List Token.Inline) := do
  requireAuth c source
  let netNonzero ← stakeNetDelta.ne .zero
  let cpuNonzero ← stakeCpuDelta.ne .zero
  eosioAssert .changebw (netNonzero || cpuNonzero) "should stake non-zero amount"
  let both ← stakeNetDelta.add stakeCpuDelta
  eosioAssert .changebw
    (max stakeNetDelta.amount.abs stakeCpuDelta.amount.abs ≤ both.amount.abs)
    "net and cpu deltas cannot be opposite signs"
  let from_ := if transfer then receiver else source
  let delband ← updateDelband s.delband from_ receiver stakeNetDelta stakeCpuDelta
  let totals ← updateTotals s.userres receiver stakeNetDelta stakeCpuDelta
  let s := { s with
    delband, userres := totals.1, limits := s.limits.set receiver totals.2 }
  -- for `eosio.stake` both transfer and refund make no sense
  let r ← (if stakeAccount ≠ source then
      changeRefund c s source from_ receiver stakeNetDelta stakeCpuDelta transfer
    else pure (s, []))
  let s ← changeVoterStake env c r.1 from_ stakeNetDelta stakeCpuDelta
  pure (s, r.2)

def delegatebw (c : Ctx) (s : State) (from_ receiver : AccountName)
    (stakeNetQuantity stakeCpuQuantity : Asset) (transfer : Bool) :
    Result (State × List Token.Inline) := do
  let cpuOk ← stakeCpuQuantity.ge .zero
  eosioAssert .delegatebw cpuOk "must stake a positive amount"
  let netOk ← stakeNetQuantity.ge .zero
  eosioAssert .delegatebw netOk "must stake a positive amount"
  let both ← stakeNetQuantity.add stakeCpuQuantity
  let positive ← both.gt .zero
  eosioAssert .delegatebw positive "must stake a positive amount"
  eosioAssert .delegatebw (¬ transfer ∨ from_ ≠ receiver)
    "cannot use transfer flag if delegating to self"
  changebw env c s from_ receiver stakeNetQuantity stakeCpuQuantity transfer

def undelegatebw (c : Ctx) (s : State) (from_ receiver : AccountName)
    (unstakeNetQuantity unstakeCpuQuantity : Asset) : Result (State × List Token.Inline) := do
  let cpuOk ← Asset.zero.le unstakeCpuQuantity
  eosioAssert .undelegatebw cpuOk "must unstake a positive amount"
  let netOk ← Asset.zero.le unstakeNetQuantity
  eosioAssert .undelegatebw netOk "must unstake a positive amount"
  let both ← unstakeCpuQuantity.add unstakeNetQuantity
  let positive ← Asset.zero.lt both
  eosioAssert .undelegatebw positive "must unstake a positive amount"
  eosioAssert .undelegatebw (minActivatedStake ≤ s.global.totalActivatedStake)
    "cannot undelegate bandwidth until the chain is activated (at least 15% of all tokens participate in voting)"
  changebw env c s from_ receiver unstakeNetQuantity.neg unstakeCpuQuantity.neg false

def refund (c : Ctx) (s : State) (owner : AccountName) :
    Result (State × List Token.Inline) := do
  requireAuth c owner
  let req ← getRow .refund (s.refunds.find owner) "refund request not found"
  eosioAssert .refund (req.requestTime + refundDelay ≤ c.now) "refund is not available yet"
  let amount ← req.netAmount.add req.cpuAmount
  pure ({ s with refunds := s.refunds.erase owner },
    [inlineTransfer stakeAccount req.owner amount "unstake"])

end Xidata.System
