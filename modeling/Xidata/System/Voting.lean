import Mathlib.Algebra.Order.Group.Unbundled.Abs
import Xidata.System.State

/-!
Voting: producers and proxies register, voters vote for producers or hand
their weight to a proxy, and a change of a proxy's weight is passed on to what
the proxy votes for.
-/

namespace Xidata.System

open Eosiolib

variable (env : Env)

def minActivatedStake : Int64 := 1500000000000

/-- `_maxbp`. -/
def maxbp : ℕ := 3

/-! ### Producers -/

def regproducer (c : Ctx) (s : State) (producer : AccountName) (producerKey : PublicKey)
    (url : String) (location : UInt16) : Result State := do
  eosioAssert .regproducer (url.utf8ByteSize < 512) "url too long"
  eosioAssert .regproducer (producerKey ≠ .default) "public key should not be the default value"
  requireAuth c producer
  let info : ProducerInfo := match s.producers.find producer with
    | some info => { info with producerKey, isActive := true, url, location }
    | none => { owner := producer, totalVotes := 0, producerKey, isActive := true, url, location }
  pure { s with producers := s.producers.set producer info }

def unregprod (c : Ctx) (s : State) (producer : AccountName) : Result State := do
  requireAuth c producer
  let info ← getRow .multiIndex (s.producers.find producer) "producer not found"
  pure { s with producers := s.producers.set producer info.deactivate }

/-- The loop over the index `prototalvote`: it stops at the size limit and at
the first row without votes or not active. -/
def topProducers (s : State) : List (AccountName × ProducerInfo) :=
  ((s.producers.index ProducerInfo.byVotes).takeWhile
    fun p => 0 < p.2.totalVotes ∧ p.2.isActive).take maxbp

def updateElectedProducers (c : Ctx) (s : State) (blockTime : UInt32) : State :=
  let g := { s.global with lastProducerScheduleUpdate := blockTime }
  let top := topProducers s
  if top.length < g.lastProducerScheduleSize.toNat then { s with global := g }
  else
    let sorted := top.insertionSort fun a b => a.1 ≤ b.1
    let producers := sorted.map fun p => (p.1, p.2.producerKey)
    if 0 ≤ env.setProposedProducers c.currentTime producers then
      { s with global := { g with lastProducerScheduleSize := top.length.toUInt16 } }
    else { s with global := g }

/-! ### Votes -/

def stake2vote (c : Ctx) (staked : Int64) : ℚ := staked.toInt * env.voteFactor c.now

/-- The weight a voter has now: its own stake, and for a proxy also what it
was handed. -/
def VoterInfo.weight (c : Ctx) (v : VoterInfo) : ℚ :=
  stake2vote env c v.staked + if v.isProxy then v.proxiedVoteWeight else 0

/-- The first loop of `propagate_weight_change`: every producer the voter
votes for gains `delta`. -/
def addToProducers (delta : ℚ) (s : State) (acnt : AccountName) : Result State := do
  let info ← getRow .propagateWeightChange (s.producers.find acnt) "producer not found"
  pure { s with
    producers := s.producers.set acnt { info with totalVotes := info.totalVotes + delta }
    global := { s.global with
      totalProducerVoteWeight := s.global.totalProducerVoteWeight + delta } }

/-- `propagate_weight_change` with a bound on its recursion. -/
def propagateWithin (c : Ctx) : ℕ → State → AccountName → Result State
  | 0, _, _ => .error (.recursionLimit .propagateWeightChange)
  | depth + 1, s, name => do
    let voter ← getRow .multiIndex (s.voters.find name) "object is not in multi_index"
    eosioAssert .propagateWeightChange (voter.proxy = 0 ∨ ¬ voter.isProxy)
      "account registered as a proxy is not allowed to use a proxy"
    let newWeight := voter.weight env c
    let delta := newWeight - voter.lastVoteWeight
    let s ←
      -- changes of at most 1 are not passed on
      if 1 < |delta| then
        if voter.proxy ≠ 0 then do
          let proxy ← getRow .propagateWeightChange (s.voters.find voter.proxy) "proxy not found"
          propagateWithin c depth { s with
            voters := s.voters.set voter.proxy
              { proxy with proxiedVoteWeight := proxy.proxiedVoteWeight + delta } } voter.proxy
        else voter.producers.foldlM (addToProducers delta) s
      else pure { s with skipped := s.skipped + if delta = 0 then 0 else 1 }
    pure { s with voters := s.voters.modify name fun v => { v with lastVoteWeight := newWeight } }

/-- Among `n` voters no chain of proxies is longer than `n`
(`propagate_no_recursionLimit`). -/
def propagateWeightChange (c : Ctx) (s : State) (name : AccountName) : Result State :=
  propagateWithin env c (s.voters.size + 1) s name

/-- `producer_deltas`: for each producer its change, and whether it is voted for now. -/
abbrev ProducerDeltas := OrderedTable AccountName (ℚ × Bool)

def ProducerDeltas.add (d : ProducerDeltas) (x : ℚ) (new : Bool) (p : AccountName) :
    ProducerDeltas :=
  d.set p ((d.find p).elim 0 Prod.fst + x, new)

/-- The checks on a vote that need no table. -/
def validateVote (voterName proxy : AccountName) (producers : List AccountName) :
    Result Unit :=
  if proxy ≠ 0 then do
    eosioAssert .updateVotes (producers.length = 0)
      "cannot vote for producers and proxy at same time"
    eosioAssert .updateVotes (voterName ≠ proxy) "cannot proxy to self"
  else do
    eosioAssert .updateVotes (producers.length ≤ 30) "attempt to vote for too many producers"
    eosioAssert .updateVotes (producers.IsChain (· < ·))
      "producer votes must be unique and sorted"

/-- The first vote of a voter counts its stake as activated. -/
def activateStake (c : Ctx) (s : State) (voterName : AccountName) (voter : VoterInfo) : State :=
  if voter.lastVoteWeight ≤ 0 then
    let total := s.global.totalActivatedStake + voter.staked
    let threshTime :=
      if minActivatedStake ≤ total ∧ s.global.threshActivatedStakeTime = 0 then c.currentTime
      else s.global.threshActivatedStakeTime
    { s with
      global := { s.global with
        totalActivatedStake := total, threshActivatedStakeTime := threshTime }
      activations := (voterName, voter.staked) :: s.activations }
  else s

/-- The weight of the last vote is taken back from the old proxy, or listed
in the deltas of the old producers. -/
def undoVote (c : Ctx) (s : State) (voter : VoterInfo) : Result (State × ProducerDeltas) :=
  if 0 < voter.lastVoteWeight then
    if voter.proxy ≠ 0 then do
      let oldProxy ← getRow .updateVotes (s.voters.find voter.proxy) "old proxy not found"
      let s ← propagateWeightChange env c { s with
        voters := s.voters.set voter.proxy
          { oldProxy with
            proxiedVoteWeight := oldProxy.proxiedVoteWeight - voter.lastVoteWeight } } voter.proxy
      pure (s, .empty)
    else
      pure (s, voter.producers.foldl
        (fun d p => ProducerDeltas.add d (-voter.lastVoteWeight) false p) .empty)
  else pure (s, .empty)

/-- The new weight is handed to the new proxy, or listed in the deltas of the
new producers. -/
def castVote (c : Ctx) (s : State) (deltas : ProducerDeltas) (proxy : AccountName)
    (producers : List AccountName) (newVoteWeight : ℚ) (voting : Bool) :
    Result (State × ProducerDeltas) :=
  if proxy ≠ 0 then do
    let newProxy ← getRow .updateVotes (s.voters.find proxy) "invalid proxy specified"
    eosioAssert .updateVotes (¬ voting ∨ newProxy.isProxy) "proxy not found"
    if 0 ≤ newVoteWeight then do
      let s ← propagateWeightChange env c { s with
        voters := s.voters.set proxy
          { newProxy with
            proxiedVoteWeight := newProxy.proxiedVoteWeight + newVoteWeight } } proxy
      pure (s, deltas)
    else pure (s, deltas)
  else if 0 ≤ newVoteWeight then
    pure (s, producers.foldl (fun d p => ProducerDeltas.add d newVoteWeight true p) deltas)
  else pure (s, deltas)

/-- One entry of `producer_deltas` applied to its producer. -/
def applyDelta (voting : Bool) (s : State) (pd : AccountName × ℚ × Bool) : Result State :=
  match s.producers.find pd.1 with
  | some info => do
    eosioAssert .updateVotes (¬ voting ∨ info.isActive ∨ ¬ pd.2.2)
      "producer is not currently registered"
    let total := info.totalVotes + pd.2.1
    pure { s with
      producers := s.producers.set pd.1 { info with totalVotes := if total < 0 then 0 else total }
      global := { s.global with
        totalProducerVoteWeight := s.global.totalProducerVoteWeight + pd.2.1 } }
  | none => do
    eosioAssert .updateVotes (¬ pd.2.2) "producer is not registered"
    pure s

def updateVotes (c : Ctx) (s : State) (voterName proxy : AccountName)
    (producers : List AccountName) (voting : Bool) : Result State := do
  validateVote voterName proxy producers
  let voter ← getRow .updateVotes (s.voters.find voterName)
    "user must stake before they can vote"
  eosioAssert .updateVotes (proxy = 0 ∨ ¬ voter.isProxy)
    "account registered as a proxy is not allowed to use a proxy"
  let s := activateStake c s voterName voter
  let newVoteWeight := voter.weight env c
  let r ← undoVote env c s voter
  let r ← castVote env c r.1 r.2 proxy producers newVoteWeight voting
  let s ← r.2.rows.foldlM (applyDelta voting) r.1
  pure { s with
    voters := s.voters.modify voterName fun av =>
      { av with lastVoteWeight := newVoteWeight, producers, proxy } }

def voteproducer (c : Ctx) (s : State) (voterName proxy : AccountName)
    (producers : List AccountName) : Result State := do
  requireAuth c voterName
  updateVotes env c s voterName proxy producers true

def regproxy (c : Ctx) (s : State) (proxy : AccountName) (isproxy : Bool) : Result State := do
  requireAuth c proxy
  match s.voters.find proxy with
  | some voter => do
    eosioAssert .regproxy (isproxy ≠ voter.isProxy) "action has no effect"
    eosioAssert .regproxy (¬ isproxy ∨ voter.proxy = 0)
      "account that uses a proxy is not allowed to become a proxy"
    propagateWeightChange env c
      { s with voters := s.voters.set proxy { voter with isProxy := isproxy } } proxy
  | none => pure { s with voters := s.voters.set proxy { owner := proxy, isProxy := isproxy } }

end Xidata.System
