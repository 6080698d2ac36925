import Xidata.System.Frame
import Xidata.System.Chain

/-!
The actions that move neither stake nor votes nor RAM: registering and paying
producers, blocks, and bids on names.  Each leaves all four groups of tables as
they are; a producer may get a new row, which starts without votes.
-/

namespace Xidata.System

open Eosiolib

variable {env : Env} {c : Ctx}

/-- The voters and what was voted for agree. -/
structure SameVotes (s s' : State) : Prop where
  voters : s'.voters = s.voters
  votes : ∀ p, (s'.producers.find p).elim 0 ProducerInfo.totalVotes =
    (s.producers.find p).elim 0 ProducerInfo.totalVotes
  votesSum : s'.producers.sum (fun _ p => p.totalVotes) = s.producers.sum fun _ p => p.totalVotes
  registered : ∀ p, (s.producers.find p).isSome → (s'.producers.find p).isSome
  totalProducerVoteWeight : s'.global.totalProducerVoteWeight = s.global.totalProducerVoteWeight
  totalActivatedStake : s'.global.totalActivatedStake = s.global.totalActivatedStake
  activations : s'.activations = s.activations
  skipped : s'.skipped = s.skipped

namespace SameVotes

theorem refl (s : State) : SameVotes s s := ⟨rfl, fun _ => rfl, rfl, fun _ h => h, rfl, rfl, rfl, rfl⟩

theorem trans {s₁ s₂ s₃ : State} (h : SameVotes s₁ s₂) (h' : SameVotes s₂ s₃) :
    SameVotes s₁ s₃ where
  voters := h'.voters.trans h.voters
  votes p := (h'.votes p).trans (h.votes p)
  votesSum := h'.votesSum.trans h.votesSum
  registered p hp := h'.registered p (h.registered p hp)
  totalProducerVoteWeight := h'.totalProducerVoteWeight.trans h.totalProducerVoteWeight
  totalActivatedStake := h'.totalActivatedStake.trans h.totalActivatedStake
  activations := h'.activations.trans h.activations
  skipped := h'.skipped.trans h.skipped

/-- Writing a producer's row with the votes it had. -/
theorem setProducer {s : State} {p : AccountName} {info : ProducerInfo}
    (h : info.totalVotes = (s.producers.find p).elim 0 ProducerInfo.totalVotes) :
    SameVotes s { s with producers := s.producers.set p info } := by
  have hadj : s.producers.Adjusted (s.producers.set p info) p ProducerInfo.totalVotes 0 :=
    .set (by rw [h, add_zero])
  refine ⟨rfl, fun q => ?_, ?_, fun q hq => ?_, rfl, rfl, rfl, rfl⟩
  · simpa using hadj.value q
  · simpa using hadj.sum (f := fun _ x => x) fun _ _ _ => rfl
  · rw [OrderedTable.find_set]
    split
    · rfl
    · exact hq

end SameVotes

/-- All four groups of tables agree. -/
structure Quiet (s s' : State) : Prop extends
    SameDelegations s s', SameResources s s', SameMarket s s', SameVotes s s'

namespace Quiet

theorem refl (s : State) : Quiet s s :=
  ⟨⟨rfl, rfl, rfl⟩, ⟨rfl, rfl⟩, ⟨rfl, rfl, rfl, rfl⟩, .refl s⟩

theorem trans {s₁ s₂ s₃ : State} (h : Quiet s₁ s₂) (h' : Quiet s₂ s₃) : Quiet s₁ s₃ where
  toSameDelegations := ⟨h'.delband.trans h.delband, h'.refunds.trans h.refunds,
    h'.deferred.trans h.deferred⟩
  toSameResources := ⟨h'.userres.trans h.userres, h'.limits.trans h.limits⟩
  toSameMarket := ⟨h'.rammarket.trans h.rammarket, h'.maxRamSize.trans h.maxRamSize,
    h'.totalRamBytesReserved.trans h.totalRamBytesReserved,
    h'.totalRamStake.trans h.totalRamStake⟩
  toSameVotes := h.toSameVotes.trans h'.toSameVotes

/-- A write to a producer's row that keeps its votes. -/
theorem setProducer {s : State} {p : AccountName} {info : ProducerInfo}
    (h : info.totalVotes = (s.producers.find p).elim 0 ProducerInfo.totalVotes) :
    Quiet s { s with producers := s.producers.set p info } :=
  ⟨⟨rfl, rfl, rfl⟩, ⟨rfl, rfl⟩, ⟨rfl, rfl, rfl, rfl⟩, .setProducer h⟩

/-- A write to the auctions and to the other counters. -/
theorem setGlobal (s : State) (namebids : OrderedTable AccountName NameBid) {g : GlobalState}
    (hg : (g.maxRamSize, g.totalRamBytesReserved, g.totalRamStake, g.totalProducerVoteWeight,
        g.totalActivatedStake) =
      (s.global.maxRamSize, s.global.totalRamBytesReserved, s.global.totalRamStake,
        s.global.totalProducerVoteWeight, s.global.totalActivatedStake)) :
    Quiet s { s with namebids, global := g } := by
  simp only [Prod.mk.injEq] at hg
  obtain ⟨h₁, h₂, h₃, h₄, h₅⟩ := hg
  exact ⟨⟨rfl, rfl, rfl⟩, ⟨rfl, rfl⟩, ⟨rfl, h₁, h₂, h₃⟩,
    ⟨rfl, fun _ => rfl, rfl, fun _ hp => hp, h₄, h₅, rfl, rfl⟩⟩

end Quiet

theorem regproducer_quiet {s s' : State} {producer : AccountName} {key : PublicKey}
    {url : String} {location : UInt16}
    (h : regproducer c s producer key url location = .ok s') :
    Quiet s s' ∧ s'.namebids = s.namebids := by
  simp only [regproducer, Rollback.bind_eq_ok, eosioAssert_eq_ok, requireAuth_eq_ok,
    exists_const, Rollback.pure_eq_ok] at h
  obtain ⟨-, -, -, rfl⟩ := h
  refine ⟨.setProducer ?_, rfl⟩
  cases s.producers.find producer <;> rfl

theorem unregprod_quiet {s s' : State} {producer : AccountName}
    (h : unregprod c s producer = .ok s') : Quiet s s' ∧ s'.namebids = s.namebids := by
  simp only [unregprod, Rollback.bind_eq_ok, getRow_eq_ok, requireAuth_eq_ok, exists_const,
    Rollback.pure_eq_ok] at h
  obtain ⟨-, info, hinfo, rfl⟩ := h
  exact ⟨.setProducer (by rw [hinfo]; rfl), rfl⟩

theorem rmvproducer_quiet {s s' : State} {producer : AccountName}
    (h : rmvproducer c s producer = .ok s') : Quiet s s' ∧ s'.namebids = s.namebids := by
  simp only [rmvproducer, Rollback.bind_eq_ok, getRow_eq_ok, requireAuth_eq_ok, exists_const,
    Rollback.pure_eq_ok] at h
  obtain ⟨-, info, hinfo, rfl⟩ := h
  exact ⟨.setProducer (by rw [hinfo]; rfl), rfl⟩

theorem bidname_quiet {s : State} {bidder newname : AccountName} {bid : Asset}
    {r : State × List Token.Inline} (h : bidname c s bidder newname bid = .ok r) :
    Quiet s r.1 := by
  simp only [bidname, Rollback.bind_eq_ok, eosioAssert_eq_ok, requireAuth_eq_ok,
    exists_const] at h
  obtain ⟨-, -, -, -, -, -, -, -, h⟩ := h
  split at h
  · cases h
    exact .setGlobal s _ rfl
  · simp only [Rollback.bind_eq_ok, eosioAssert_eq_ok, exists_const, Rollback.pure_eq_ok] at h
    obtain ⟨-, -, -, back, -, rfl⟩ := h
    exact .setGlobal s _ rfl

theorem countBlock_quiet (s : State) (producer : AccountName) :
    Quiet s (countBlock s producer) := by
  unfold countBlock
  split
  · rename_i info hinfo
    have hset : Quiet s { s with
        producers := s.producers.set producer
          { info with unpaidBlocks := info.unpaidBlocks + 1 } } :=
      .setProducer (by rw [hinfo]; rfl)
    exact hset.trans (.setGlobal _ s.namebids rfl)
  · exact .refl s

theorem updateElectedProducers_quiet (env : Env) (c : Ctx) (s : State) (blockTime : UInt32) :
    Quiet s (updateElectedProducers env c s blockTime) := by
  simp only [updateElectedProducers]
  split
  · exact .setGlobal s s.namebids rfl
  · split <;> exact .setGlobal s s.namebids rfl

theorem closeAuction_quiet (s : State) (timestamp : UInt32) :
    Quiet s (closeAuction c s timestamp) := by
  unfold closeAuction
  split
  · exact .refl s
  · split
    · exact .setGlobal s _ rfl
    · exact .refl s

theorem startPervoteFill_quiet (s : State) : Quiet s (startPervoteFill c s) := by
  unfold startPervoteFill
  split
  · exact .setGlobal s s.namebids rfl
  · exact .refl s

theorem onblock_quiet {s s' : State} {timestamp : UInt32} {producer : AccountName}
    (h : onblock env c s timestamp producer = .ok s') : Quiet s s' := by
  simp only [onblock, Rollback.bind_eq_ok, requireAuth_eq_ok, exists_const] at h
  obtain ⟨-, h⟩ := h
  split at h
  · cases h
    exact .refl s
  · have hcount := (startPervoteFill_quiet (c := c) s).trans (countBlock_quiet _ producer)
    split at h
    · have helect := hcount.trans (updateElectedProducers_quiet env c _ timestamp)
      split at h <;> cases h
      · exact helect.trans (closeAuction_quiet _ timestamp)
      · exact helect
    · cases h
      exact hcount

theorem fillBuckets_quiet {token : Token.State} {s : State} {r : State × List Token.Inline}
    (h : fillBuckets env c token s = .ok r) :
    Quiet s r.1 ∧ r.1.namebids = s.namebids ∧ r.1.producers = s.producers := by
  simp only [fillBuckets, Rollback.bind_eq_ok] at h
  obtain ⟨tokenSupply, -, h⟩ := h
  split at h
  · simp only [Rollback.bind_eq_ok, Rollback.pure_eq_ok] at h
    obtain ⟨_, -, _, -, _, -, _, -, rfl⟩ := h
    exact ⟨.setGlobal s s.namebids rfl, rfl, rfl⟩
  · cases h
    exact ⟨.refl s, rfl, rfl⟩

theorem claimrewards_quiet {token : Token.State} {s : State} {owner : AccountName}
    {r : State × List Token.Inline} (h : claimrewards env c token s owner = .ok r) :
    Quiet s r.1 ∧ r.1.namebids = s.namebids := by
  simp only [claimrewards, Rollback.bind_eq_ok, getRow_eq_ok, requireAuth_eq_ok,
    eosioAssert_eq_ok, exists_const, Rollback.pure_eq_ok] at h
  obtain ⟨-, prod, hprod, -, -, -, filled, hfilled, _, -, _, -, rfl⟩ := h
  obtain ⟨hquiet, hbids, hproducers⟩ := fillBuckets_quiet hfilled
  have hset : Quiet filled.1 { filled.1 with
      producers := filled.1.producers.set owner
        { prod with lastClaimTime := c.currentTime, unpaidBlocks := 0 } } :=
    .setProducer (by rw [hproducers, hprod]; rfl)
  exact ⟨(hquiet.trans hset).trans (.setGlobal _ filled.1.namebids rfl), hbids⟩

theorem setram_cases {s s' : State} {maxRamSize : UInt64}
    (h : setram c s maxRamSize = .ok s') :
    s.global.maxRamSize < maxRamSize ∧ maxRamSize < 1024 * 1024 * 1024 * 1024 * 1024 ∧
      s.global.totalRamBytesReserved < maxRamSize ∧
      ∃ m, s.rammarket = some m ∧
        s' = { s with
          rammarket := some { m with
            base := { m.base with
              amount := m.base.amount +
                (maxRamSize.toInt64 - s.global.maxRamSize.toInt64) } }
          global := { s.global with maxRamSize } } := by
  simp only [setram, Rollback.bind_eq_ok, getRow_eq_ok, requireAuth_eq_ok, eosioAssert_eq_ok,
    exists_const, Rollback.pure_eq_ok] at h
  obtain ⟨-, hinc, hreal, hreserved, m, hm, rfl⟩ := h
  exact ⟨hinc, hreal, hreserved, m, hm, rfl⟩

theorem construct_cases {token : Token.State} {s s' : State} (h : construct token s = .ok s') :
    s' = s ∨ s.rammarket = none ∧ ∃ m : ExchangeState, s' = { s with rammarket := some m } ∧
      m.supply.symbol = ramcoreSymbol ∧ m.base = ⟨s.global.freeRam.toInt64, ramSymbol⟩ ∧
      ∃ supply : Asset, 0 < supply.units ∧
        m.quote = ⟨supply.amount / 1000, coreSymbol⟩ := by
  unfold construct at h
  split at h
  · cases h
    exact .inl rfl
  · rename_i hnone
    simp only [Rollback.bind_eq_ok] at h
    obtain ⟨supply, -, h⟩ := h
    split at h
    · rename_i hpos
      cases h
      exact .inr ⟨hnone, _, rfl, rfl, rfl, supply, Int64.lt_iff_toInt_lt.mp hpos, rfl⟩
    · cases h
      exact .inl rfl

end Xidata.System
