import Xidata.System.Chain

/-!
What the functions of the contract leave alone, in four groups of tables: the
delegations with their refunds, the resources with the limits set from them,
the RAM market with its counters, and the votes.

`propagateWeightChange` and `updateVotes` write votes only.  Of a voter they
write the two weights, and `updateVotes` also the choice of the one voter who
votes.
-/

namespace Xidata.System

open Eosiolib

variable {env : Env} {c : Ctx}

structure SameDelegations (s s' : State) : Prop where
  delband : s'.delband = s.delband
  refunds : s'.refunds = s.refunds
  deferred : s'.deferred = s.deferred

structure SameResources (s s' : State) : Prop where
  userres : s'.userres = s.userres
  limits : s'.limits = s.limits

structure SameMarket (s s' : State) : Prop where
  rammarket : s'.rammarket = s.rammarket
  maxRamSize : s'.global.maxRamSize = s.global.maxRamSize
  totalRamBytesReserved : s'.global.totalRamBytesReserved = s.global.totalRamBytesReserved
  totalRamStake : s'.global.totalRamStake = s.global.totalRamStake

/-- Everything outside the voting tables agrees. -/
structure VoteFrame (s s' : State) : Prop extends
    SameDelegations s s', SameResources s s', SameMarket s s' where
  namebids : s'.namebids = s.namebids

namespace VoteFrame

theorem refl (s : State) : VoteFrame s s :=
  ⟨⟨rfl, rfl, rfl⟩, ⟨rfl, rfl⟩, ⟨rfl, rfl, rfl, rfl⟩, rfl⟩

theorem trans {s₁ s₂ s₃ : State} (h : VoteFrame s₁ s₂) (h' : VoteFrame s₂ s₃) :
    VoteFrame s₁ s₃ where
  delband := h'.delband.trans h.delband
  refunds := h'.refunds.trans h.refunds
  deferred := h'.deferred.trans h.deferred
  userres := h'.userres.trans h.userres
  limits := h'.limits.trans h.limits
  rammarket := h'.rammarket.trans h.rammarket
  maxRamSize := h'.maxRamSize.trans h.maxRamSize
  totalRamBytesReserved := h'.totalRamBytesReserved.trans h.totalRamBytesReserved
  totalRamStake := h'.totalRamStake.trans h.totalRamStake
  namebids := h'.namebids.trans h.namebids

theorem setVoters (s : State) (voters : OrderedTable AccountName VoterInfo) :
    VoteFrame s { s with voters } :=
  ⟨⟨rfl, rfl, rfl⟩, ⟨rfl, rfl⟩, ⟨rfl, rfl, rfl, rfl⟩, rfl⟩

end VoteFrame

/-! ### What a vote writes -/

/-- What a successful call of `propagate_weight_change` did: the voter passes
its change on to its proxy, or to its producers, or finds it too small, and in
each case its last weight becomes its weight. -/
theorem propagateWithin_cases {depth : ℕ} {s s' : State} {name : AccountName}
    (h : propagateWithin env c (depth + 1) s name = .ok s') :
    ∃ voter m, s.voters.find name = some voter ∧ (voter.proxy = 0 ∨ ¬ voter.isProxy) ∧
      s' = { m with
        voters := m.voters.modify name fun v =>
          { v with lastVoteWeight := voter.weight env c } } ∧
      ((1 < |voter.weight env c - voter.lastVoteWeight| ∧ voter.proxy ≠ 0 ∧
          ∃ proxy, s.voters.find voter.proxy = some proxy ∧
            propagateWithin env c depth { s with
              voters := s.voters.set voter.proxy
                { proxy with proxiedVoteWeight :=
                  proxy.proxiedVoteWeight + (voter.weight env c - voter.lastVoteWeight) } }
              voter.proxy = .ok m) ∨
        (1 < |voter.weight env c - voter.lastVoteWeight| ∧ voter.proxy = 0 ∧
          voter.producers.foldlM
            (addToProducers (voter.weight env c - voter.lastVoteWeight)) s = .ok m) ∨
        (¬ 1 < |voter.weight env c - voter.lastVoteWeight| ∧
          m = { s with skipped := s.skipped +
            if voter.weight env c - voter.lastVoteWeight = 0 then 0 else 1 })) := by
  simp only [propagateWithin, Rollback.bind_eq_ok, getRow_eq_ok, eosioAssert_eq_ok,
    exists_const] at h
  obtain ⟨voter, hvoter, hproxy, h⟩ := h
  split at h
  · rename_i hbig
    split at h
    · rename_i hne
      simp only [Rollback.bind_eq_ok, getRow_eq_ok, Rollback.pure_eq_ok] at h
      obtain ⟨proxy, hfind, m, hm, rfl⟩ := h
      exact ⟨voter, m, hvoter, hproxy, rfl, .inl ⟨hbig, hne, proxy, hfind, hm⟩⟩
    · rename_i hzero
      simp only [Rollback.bind_eq_ok, Rollback.pure_eq_ok] at h
      obtain ⟨m, hm, rfl⟩ := h
      exact ⟨voter, m, hvoter, hproxy, rfl, .inr (.inl ⟨hbig, not_not.mp hzero, hm⟩)⟩
  · rename_i hsmall
    simp only [Rollback.bind_eq_ok, Rollback.pure_eq_ok] at h
    obtain ⟨m, rfl, rfl⟩ := h
    exact ⟨voter, _, hvoter, hproxy, rfl, .inr (.inr ⟨hsmall, rfl⟩)⟩

/-- The phases of a successful `update_votes`. -/
theorem updateVotes_cases {s s' : State} {name proxy : AccountName}
    {producers : List AccountName} {voting : Bool}
    (h : updateVotes env c s name proxy producers voting = .ok s') :
    ∃ voter u d m, validateVote name proxy producers = .ok () ∧
      s.voters.find name = some voter ∧
      (proxy = 0 ∨ ¬ voter.isProxy) ∧
      undoVote env c (activateStake c s name voter) voter = .ok u ∧
      castVote env c u.1 u.2 proxy producers (voter.weight env c) voting = .ok d ∧
      d.2.rows.foldlM (applyDelta voting) d.1 = .ok m ∧
      s' = { m with
        voters := m.voters.modify name fun av =>
          { av with lastVoteWeight := voter.weight env c, producers, proxy } } := by
  simp only [updateVotes, Rollback.bind_eq_ok, getRow_eq_ok, eosioAssert_eq_ok,
    exists_const, Rollback.pure_eq_ok] at h
  obtain ⟨_, hvalid, voter, hvoter, hproxy, u, hu, d, hd, m, hm, rfl⟩ := h
  exact ⟨voter, u, d, m, hvalid, hvoter, hproxy, hu, hd, hm, rfl⟩

/-- What it comes to that the old vote is taken back or the new one cast: nothing is written,
or the proxy `k` is handed another weight and passes the change on. -/
inductive HandsOn (env : Env) (c : Ctx) (s m : State) (k : AccountName) : Prop
  | same (hm : m = s)
  | proxy (p : VoterInfo) (x : ℚ) (hne : k ≠ 0) (hp : s.voters.find k = some p)
      (hm : propagateWeightChange env c
        { s with voters := s.voters.set k { p with proxiedVoteWeight := x } } k = .ok m)

theorem undoVote_handsOn {s : State} {voter : VoterInfo} {r : State × ProducerDeltas}
    (h : undoVote env c s voter = .ok r) : HandsOn env c s r.1 voter.proxy := by
  unfold undoVote at h
  split at h
  · split at h
    · rename_i hne
      simp only [Rollback.bind_eq_ok, getRow_eq_ok, Rollback.pure_eq_ok] at h
      obtain ⟨oldProxy, hold, m, hm, rfl⟩ := h
      exact .proxy oldProxy _ hne hold hm
    · cases h
      exact .same rfl
  · cases h
    exact .same rfl

theorem castVote_handsOn {s : State} {d : ProducerDeltas} {proxy : AccountName}
    {producers : List AccountName} {w : ℚ} {voting : Bool} {r : State × ProducerDeltas}
    (h : castVote env c s d proxy producers w voting = .ok r) : HandsOn env c s r.1 proxy := by
  unfold castVote at h
  split at h
  · rename_i hne
    simp only [Rollback.bind_eq_ok, getRow_eq_ok, eosioAssert_eq_ok, exists_const] at h
    obtain ⟨newProxy, hnew, -, h⟩ := h
    split at h
    · simp only [Rollback.bind_eq_ok, Rollback.pure_eq_ok] at h
      obtain ⟨m, hm, rfl⟩ := h
      exact .proxy newProxy _ hne hnew hm
    · cases h
      exact .same rfl
  · split at h <;> cases h <;> exact .same rfl

theorem updateVotes_of_voteproducer {s s' : State} {name proxy : AccountName}
    {producers : List AccountName}
    (h : voteproducer env c s name proxy producers = .ok s') :
    updateVotes env c s name proxy producers true = .ok s' := by
  simp only [voteproducer, Rollback.bind_eq_ok, requireAuth_eq_ok, exists_const] at h
  exact h.2

/-- What a successful `regproxy` did: a voter passes on what changes with its new role, or gets
a row. -/
theorem regproxy_cases {s s' : State} {proxy : AccountName} {isproxy : Bool}
    (h : regproxy env c s proxy isproxy = .ok s') :
    (∃ voter, s.voters.find proxy = some voter ∧ isproxy ≠ voter.isProxy ∧
      (¬ isproxy ∨ voter.proxy = 0) ∧
      propagateWeightChange env c
        { s with voters := s.voters.set proxy { voter with isProxy := isproxy } } proxy =
          .ok s') ∨
      s.voters.find proxy = none ∧
        s' = { s with voters := s.voters.set proxy { owner := proxy, isProxy := isproxy } } := by
  simp only [regproxy, Rollback.bind_eq_ok, requireAuth_eq_ok, exists_const] at h
  obtain ⟨-, h⟩ := h
  split at h
  · rename_i voter hvoter
    simp only [Rollback.bind_eq_ok, eosioAssert_eq_ok, exists_const] at h
    obtain ⟨hchanges, hb, h⟩ := h
    exact .inl ⟨voter, hvoter, hchanges, hb, h⟩
  · rename_i hnone
    cases h
    exact .inr ⟨hnone, rfl⟩

/-- A relation between states that every write of the voting functions satisfies, but
for the activation of a stake. -/
structure VoteWrites (R : State → State → Prop) : Prop where
  refl : ∀ s, R s s
  trans : ∀ {s₁ s₂ s₃}, R s₁ s₂ → R s₂ s₃ → R s₁ s₃
  setVoters : ∀ (s : State) (voters : OrderedTable AccountName VoterInfo), R s { s with voters }
  setVotes : ∀ (s : State) {k : AccountName} {info : ProducerInfo} (votes total : ℚ),
    s.producers.find k = some info → R s { s with
      producers := s.producers.set k { info with totalVotes := votes }
      global := { s.global with totalProducerVoteWeight := total } }
  skip : ∀ (s : State) (n : ℕ), R s { s with skipped := s.skipped + n }

namespace VoteWrites

variable {R : State → State → Prop} (hR : VoteWrites R) {s s' : State} {name proxy : AccountName}
  {producers : List AccountName} {voting : Bool}

include hR

theorem addToProducers {delta : ℚ} (h : addToProducers delta s name = .ok s') : R s s' := by
  simp only [System.addToProducers, Rollback.bind_eq_ok, getRow_eq_ok, Rollback.pure_eq_ok] at h
  obtain ⟨info, hinfo, rfl⟩ := h
  exact hR.setVotes s _ _ hinfo

theorem propagateWithin {depth : ℕ} (h : propagateWithin env c depth s name = .ok s') :
    R s s' := by
  induction depth generalizing s s' name with
  | zero => cases h
  | succ depth ih =>
      obtain ⟨voter, m, -, -, rfl, hm⟩ := propagateWithin_cases h
      have hpassed : R s m := by
        rcases hm with ⟨-, -, proxy, -, hrec⟩ | ⟨-, -, hfold⟩ | ⟨-, rfl⟩
        · exact hR.trans (hR.setVoters s _) (ih hrec)
        · exact Rollback.foldlM_induction (I := R s)
            (fun _ _ _ _ hI hb => hR.trans hI (hR.addToProducers hb)) (hR.refl s) hfold
        · exact hR.skip s _
      exact hR.trans hpassed (hR.setVoters m _)

theorem propagateWeightChange {voters : OrderedTable AccountName VoterInfo}
    (h : propagateWeightChange env c { s with voters } name = .ok s') : R s s' :=
  hR.trans (hR.setVoters s voters) (hR.propagateWithin h)

theorem handsOn {k : AccountName} (h : HandsOn env c s s' k) : R s s' := by
  cases h with
  | same hm => exact hm ▸ hR.refl s
  | proxy p x hne hp hm => exact hR.propagateWeightChange hm

theorem applyDelta {pd : AccountName × ℚ × Bool} (h : applyDelta voting s pd = .ok s') :
    R s s' := by
  unfold System.applyDelta at h
  split at h
  · rename_i info hinfo
    simp only [Rollback.bind_eq_ok, eosioAssert_eq_ok, exists_const, Rollback.pure_eq_ok] at h
    obtain ⟨-, rfl⟩ := h
    exact hR.setVotes s _ _ hinfo
  · simp only [Rollback.bind_eq_ok, eosioAssert_eq_ok, exists_const, Rollback.pure_eq_ok] at h
    obtain ⟨-, rfl⟩ := h
    exact hR.refl s

/-- After the stake has been activated, a vote writes nothing else. -/
theorem updateVotes (h : updateVotes env c s name proxy producers voting = .ok s') :
    ∃ voter, s.voters.find name = some voter ∧ R (activateStake c s name voter) s' := by
  obtain ⟨voter, u, d, m, -, hvoter, -, hu, hd, hm, rfl⟩ := updateVotes_cases h
  have hfold : R d.1 m := Rollback.foldlM_induction (I := R d.1)
    (fun _ _ _ _ hI hb => hR.trans hI (hR.applyDelta hb)) (hR.refl _) hm
  refine ⟨voter, hvoter, ?_⟩
  have hvotes := hR.trans (hR.handsOn (undoVote_handsOn hu)) (hR.handsOn (castVote_handsOn hd))
  exact hR.trans (hR.trans hvotes hfold) (hR.setVoters m _)

theorem voteproducer (hact : ∀ s name voter, R s (activateStake c s name voter))
    (h : voteproducer env c s name proxy producers = .ok s') : R s s' := by
  obtain ⟨voter, -, hvoted⟩ := hR.updateVotes (updateVotes_of_voteproducer h)
  exact hR.trans (hact s name voter) hvoted

theorem regproxy {isproxy : Bool} (h : regproxy env c s proxy isproxy = .ok s') : R s s' := by
  obtain ⟨voter, -, -, -, h⟩ | ⟨-, rfl⟩ := regproxy_cases h
  · exact hR.propagateWeightChange h
  · exact hR.setVoters s _

end VoteWrites

theorem VoteFrame.writes : VoteWrites VoteFrame where
  refl := .refl
  trans := .trans
  setVoters := .setVoters
  setVotes _ _ _ _ _ _ := ⟨⟨rfl, rfl, rfl⟩, ⟨rfl, rfl⟩, ⟨rfl, rfl, rfl, rfl⟩, rfl⟩
  skip _ _ := ⟨⟨rfl, rfl, rfl⟩, ⟨rfl, rfl⟩, ⟨rfl, rfl, rfl, rfl⟩, rfl⟩

theorem activateStake_frame (s : State) (name : AccountName) (voter : VoterInfo) :
    VoteFrame s (activateStake c s name voter) := by
  unfold activateStake
  split
  · exact ⟨⟨rfl, rfl, rfl⟩, ⟨rfl, rfl⟩, ⟨rfl, rfl, rfl, rfl⟩, rfl⟩
  · exact .refl s

theorem voteproducer_frame {s s' : State} {name proxy : AccountName}
    {producers : List AccountName}
    (h : voteproducer env c s name proxy producers = .ok s') : VoteFrame s s' :=
  VoteFrame.writes.voteproducer activateStake_frame h

theorem regproxy_frame {s s' : State} {proxy : AccountName} {isproxy : Bool}
    (h : regproxy env c s proxy isproxy = .ok s') : VoteFrame s s' :=
  VoteFrame.writes.regproxy h

/-! ### The rows of voters -/

/-- A voter without the two weights, which are all that a change passed on
through a proxy touches. -/
def VoterInfo.base (v : VoterInfo) : VoterInfo :=
  { v with lastVoteWeight := 0, proxiedVoteWeight := 0 }

/-- The voters are the same but for their weights. -/
def SameBase (s s' : State) : Prop :=
  ∀ a, (s'.voters.find a).map VoterInfo.base = (s.voters.find a).map VoterInfo.base

namespace SameBase

theorem refl (s : State) : SameBase s s := fun _ => rfl

theorem trans {s₁ s₂ s₃ : State} (h : SameBase s₁ s₂) (h' : SameBase s₂ s₃) : SameBase s₁ s₃ :=
  fun a => (h' a).trans (h a)

theorem of_voters_eq {s s' : State} (h : s'.voters = s.voters) : SameBase s s' := fun a => by
  rw [h]

theorem set {s : State} {k : AccountName} {v v' : VoterInfo} (hv : s.voters.find k = some v)
    (hbase : v'.base = v.base) : SameBase s { s with voters := s.voters.set k v' } := fun a => by
  rw [OrderedTable.find_set]
  split
  · rename_i ha
    rw [ha, hv, Option.map_some, Option.map_some, hbase]
  · rfl

theorem setProxied {s : State} {k : AccountName} {v : VoterInfo}
    (hv : s.voters.find k = some v) (x : ℚ) :
    SameBase s { s with voters := s.voters.set k { v with proxiedVoteWeight := x } } :=
  set hv rfl

theorem modify (s : State) (k : AccountName) {f : VoterInfo → VoterInfo}
    (hbase : ∀ v, (f v).base = v.base) :
    SameBase s { s with voters := s.voters.modify k f } := fun a => by
  rw [OrderedTable.find_modify]
  split
  · rename_i ha
    rw [ha, Option.map_map]
    exact congrArg (fun g => (s.voters.find k).map g) (funext hbase)
  · rfl

/-- A row has a counterpart with the same base. -/
theorem find {s s' : State} (h : SameBase s s') {a : AccountName} {v' : VoterInfo}
    (hv : s'.voters.find a = some v') : ∃ v, s.voters.find a = some v ∧ v'.base = v.base := by
  have ha := h a
  rw [hv, Option.map_some] at ha
  obtain ⟨v, hfind, hbase⟩ := Option.map_eq_some_iff.mp ha.symm
  exact ⟨v, hfind, hbase.symm⟩

theorem symm {s s' : State} (h : SameBase s s') : SameBase s' s := fun a => (h a).symm

end SameBase

theorem addToProducers_voters {delta : ℚ} {s s' : State} {acnt : AccountName}
    (h : addToProducers delta s acnt = .ok s') : s'.voters = s.voters := by
  simp only [addToProducers, Rollback.bind_eq_ok, getRow_eq_ok, Rollback.pure_eq_ok] at h
  obtain ⟨info, -, rfl⟩ := h
  rfl

theorem propagateWithin_sameBase {depth : ℕ} {s s' : State} {name : AccountName}
    (h : propagateWithin env c depth s name = .ok s') : SameBase s s' := by
  induction depth generalizing s s' name with
  | zero => cases h
  | succ depth ih =>
      obtain ⟨voter, m, -, -, rfl, hm⟩ := propagateWithin_cases h
      have hlast := SameBase.modify m name
        (f := fun v => { v with lastVoteWeight := voter.weight env c }) fun _ => rfl
      rcases hm with ⟨-, -, proxy, hproxy, hrec⟩ | ⟨-, -, hfold⟩ | ⟨-, rfl⟩
      · exact ((SameBase.setProxied hproxy _).trans (ih hrec)).trans hlast
      · have hvoters : m.voters = s.voters := Rollback.foldlM_induction
          (I := fun m => m.voters = s.voters)
          (fun _ _ _ _ hI hb => (addToProducers_voters hb).trans hI) rfl hfold
        exact (SameBase.of_voters_eq hvoters).trans hlast
      · exact hlast

theorem propagateWeightChange_sameBase {s s' : State} {name : AccountName}
    (h : propagateWeightChange env c s name = .ok s') : SameBase s s' :=
  propagateWithin_sameBase h

theorem activateStake_voters (s : State) (name : AccountName) (voter : VoterInfo) :
    (activateStake c s name voter).voters = s.voters := by
  unfold activateStake
  split <;> rfl

theorem HandsOn.sameBase {s m : State} {k : AccountName} (h : HandsOn env c s m k) :
    SameBase s m := by
  cases h with
  | same hm => exact hm ▸ .refl s
  | proxy p x hne hp hm =>
      exact (SameBase.setProxied hp x).trans (propagateWeightChange_sameBase hm)

theorem applyDelta_voters {voting : Bool} {s s' : State} {pd : AccountName × ℚ × Bool}
    (h : applyDelta voting s pd = .ok s') : s'.voters = s.voters := by
  unfold applyDelta at h
  split at h
  · simp only [Rollback.bind_eq_ok, eosioAssert_eq_ok, exists_const, Rollback.pure_eq_ok] at h
    obtain ⟨-, rfl⟩ := h
    rfl
  · simp only [Rollback.bind_eq_ok, eosioAssert_eq_ok, exists_const, Rollback.pure_eq_ok] at h
    obtain ⟨-, rfl⟩ := h
    rfl

/-- A vote changes the choice of the one voter and otherwise only weights. -/
theorem updateVotes_base {s s' : State} {name proxy : AccountName}
    {producers : List AccountName} {voting : Bool}
    (h : updateVotes env c s name proxy producers voting = .ok s') (a : AccountName) :
    (s'.voters.find a).map VoterInfo.base =
      if a = name then (s.voters.find name).map fun v => { v.base with producers, proxy }
      else (s.voters.find a).map VoterInfo.base := by
  obtain ⟨voter, u, d, m, -, -, -, hu, hd, hm, rfl⟩ := updateVotes_cases h
  have hfold : m.voters = d.1.voters := Rollback.foldlM_induction
    (I := fun m => m.voters = d.1.voters)
    (fun _ _ _ _ hI hb => (applyDelta_voters hb).trans hI) rfl hm
  have hsame : SameBase s m :=
    (((SameBase.of_voters_eq (activateStake_voters s name voter)).trans
      (undoVote_handsOn hu).sameBase).trans (castVote_handsOn hd).sameBase).trans
      (.of_voters_eq hfold)
  rw [OrderedTable.find_modify]
  split
  · have hname := congrArg (Option.map fun v => { v with producers, proxy }) (hsame name)
    simpa only [Option.map_map, Function.comp_def, VoterInfo.base] using hname
  · exact hsame a

/-! ### What only grows -/

/-- Producers stay registered, skipped changes stay counted, and no stake is
activated. -/
structure Grows (s s' : State) : Prop where
  registered : ∀ p, (s.producers.find p).isSome → (s'.producers.find p).isSome
  skipped : s.skipped ≤ s'.skipped
  activations : s'.activations = s.activations
  totalActivatedStake : s'.global.totalActivatedStake = s.global.totalActivatedStake

namespace Grows

theorem refl (s : State) : Grows s s := ⟨fun _ h => h, le_refl _, rfl, rfl⟩

theorem trans {s₁ s₂ s₃ : State} (h : Grows s₁ s₂) (h' : Grows s₂ s₃) : Grows s₁ s₃ where
  registered p hp := h'.registered p (h.registered p hp)
  skipped := h.skipped.trans h'.skipped
  activations := h'.activations.trans h.activations
  totalActivatedStake := h'.totalActivatedStake.trans h.totalActivatedStake

theorem setVoters (s : State) (voters : OrderedTable AccountName VoterInfo) :
    Grows s { s with voters } := ⟨fun _ h => h, le_refl _, rfl, rfl⟩

/-- A producer is written, and the total weight of the votes. -/
theorem setProducer (s : State) (k : AccountName) (info : ProducerInfo) (w : ℚ) :
    Grows s { s with
      producers := s.producers.set k info
      global := { s.global with totalProducerVoteWeight := w } } where
  registered p hp := by
    rw [OrderedTable.find_set]
    split
    · rfl
    · exact hp
  skipped := le_refl _
  activations := rfl
  totalActivatedStake := rfl

/-- Nothing was skipped before when nothing has been skipped after. -/
theorem skipped_eq_zero {s s' : State} (h : Grows s s') (hs : s'.skipped = 0) :
    s.skipped = 0 := Nat.le_zero.mp (hs ▸ h.skipped)

end Grows

theorem Grows.writes : VoteWrites Grows where
  refl := .refl
  trans := .trans
  setVoters := .setVoters
  setVotes _ _ _ _ _ _ := .setProducer ..
  skip _ _ := ⟨fun _ hp => hp, Nat.le_add_right _ _, rfl, rfl⟩

end Xidata.System
