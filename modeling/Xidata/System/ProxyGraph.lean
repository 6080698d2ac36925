import Xidata.Library.SuccessorGraph
import Xidata.System.Effects

/-!
The graph of proxies.  A voter that is registered as a proxy has no proxy
itself, so a vote only ever adds an edge to a node without a successor; a
former proxy may have one, and chains can get as long as there are voters, but
they never close.  This is why a change of weight that is passed on comes to
an end.
-/

namespace Xidata.System

open Eosiolib SuccessorGraph

variable {env : Env} {ctx : Ctx}

/-- The voter that `a` hands its weight to. -/
def State.proxyOf (s : State) (a : AccountName) : Option AccountName :=
  (s.voters.find a).bind fun v => if v.proxy = 0 then none else some v.proxy

structure ProxyGraph (s : State) : Prop where
  isProxy : ∀ a v, s.voters.find a = some v → v.isProxy → v.proxy = 0
  registered : ∀ a b, s.proxyOf a = some b → (s.voters.find b).isSome
  acyclic : Acyclic s.proxyOf

theorem State.proxyOf_eq_some {s : State} {a b : AccountName} :
    s.proxyOf a = some b ↔ ∃ v, s.voters.find a = some v ∧ v.proxy = b ∧ b ≠ 0 := by
  rw [State.proxyOf, Option.bind_eq_some_iff]
  refine exists_congr fun v => and_congr_right' ?_
  split
  · rename_i hzero
    exact iff_of_false (fun h => by cases h) fun ⟨hb, hne⟩ => hne (hb ▸ hzero)
  · rename_i hne
    exact ⟨fun h => ⟨Option.some.inj h, Option.some.inj h ▸ hne⟩, fun h => congrArg some h.1⟩

theorem proxyGraph_init : ProxyGraph {} where
  isProxy _ _ h := by cases h
  registered _ _ h := by cases h
  acyclic a h := by
    obtain ⟨b, hedge, -⟩ := Relation.TransGen.head'_iff.mp h
    cases hedge

/-! ### What changes no edge -/

theorem SameBase.proxyOf {s s' : State} (h : SameBase s s') : s'.proxyOf = s.proxyOf := by
  funext a
  have hproxy : ∀ t : State, t.proxyOf a = ((t.voters.find a).map VoterInfo.base).bind fun v =>
      if v.proxy = 0 then none else some v.proxy := fun t => by
    rw [State.proxyOf]
    cases t.voters.find a <;> rfl
  rw [hproxy, hproxy, h a]

theorem SameBase.isSome {s s' : State} (h : SameBase s s') (a : AccountName) :
    (s'.voters.find a).isSome = (s.voters.find a).isSome := by
  have hmap := congrArg Option.isSome (h a)
  rwa [Option.isSome_map, Option.isSome_map] at hmap

theorem ProxyGraph.of_sameBase {s s' : State} (hs : ProxyGraph s) (h : SameBase s s') :
    ProxyGraph s' where
  isProxy a v hv hproxy := by
    obtain ⟨v', hv', hbase⟩ := h.find hv
    have hold := hs.isProxy a v' hv' ((congrArg VoterInfo.isProxy hbase).symm.trans hproxy)
    exact (congrArg VoterInfo.proxy hbase).trans hold
  registered a b hab := by
    rw [h.isSome]
    exact hs.registered a b (h.proxyOf ▸ hab)
  acyclic := h.proxyOf ▸ hs.acyclic

/-- A voter may be written with the proxy it had, or with one that has none. -/
theorem ProxyGraph.set {s : State} {name : AccountName} {v : VoterInfo} (hs : ProxyGraph s)
    (hv : v.isProxy → v.proxy = 0)
    (hedge : v.proxy ≠ 0 → s.proxyOf name = some v.proxy ∨
      v.proxy ≠ name ∧ ∃ p, s.voters.find v.proxy = some p ∧ p.proxy = 0) :
    ProxyGraph { s with voters := s.voters.set name v } := by
  have hold : ∀ a b, ({ s with voters := s.voters.set name v } : State).proxyOf a = some b →
      s.proxyOf a = some b ∨ a = name ∧ b ≠ name ∧
        ∃ p, s.voters.find b = some p ∧ p.proxy = 0 := fun a b hab => by
    obtain ⟨v', hv', rfl, hne⟩ := State.proxyOf_eq_some.mp hab
    rw [OrderedTable.find_set] at hv'
    split at hv'
    · rename_i ha
      cases hv'
      rcases hedge hne with hsame | hsink
      · exact .inl (ha ▸ hsame)
      · exact .inr ⟨ha, hsink⟩
    · exact .inl (State.proxyOf_eq_some.mpr ⟨v', hv', rfl, hne⟩)
  refine ⟨fun a v' hv' hproxy => ?_, fun a b hab => ?_, hs.acyclic.redirect fun a b hab => ?_⟩
  · rw [OrderedTable.find_set] at hv'
    split at hv'
    · cases hv'
      exact hv hproxy
    · exact hs.isProxy a v' hv' hproxy
  · have hb : (s.voters.find b).isSome := by
      rcases hold a b hab with hsame | ⟨-, -, p, hp, -⟩
      · exact hs.registered a b hsame
      · rw [hp]
        rfl
    rw [OrderedTable.find_set]
    split
    · rfl
    · exact hb
  · rcases hold a b hab with hsame | ⟨-, hne, p, hp, hzero⟩
    · exact .inl hsame
    · refine .inr ?_
      rw [State.proxyOf, OrderedTable.find_set_of_ne _ hne, hp, Option.bind_some, if_pos hzero]

/-! ### Votes -/

theorem validateVote_proxy {name proxy : AccountName} {producers : List AccountName}
    (h : validateVote name proxy producers = .ok ()) (hne : proxy ≠ 0) : proxy ≠ name := by
  rw [validateVote, if_pos hne] at h
  simp only [Rollback.bind_eq_ok, eosioAssert_eq_ok, exists_const] at h
  exact h.2.symm

theorem castVote_proxy {s : State} {d : ProducerDeltas} {proxy : AccountName}
    {producers : List AccountName} {w : ℚ} {voting : Bool} {r : State × ProducerDeltas}
    (h : castVote env ctx s d proxy producers w voting = .ok r) (hne : proxy ≠ 0) :
    ∃ p, s.voters.find proxy = some p ∧ (¬ voting ∨ p.isProxy) := by
  rw [castVote, if_pos hne] at h
  simp only [Rollback.bind_eq_ok, getRow_eq_ok, eosioAssert_eq_ok, exists_const] at h
  obtain ⟨p, hp, hproxy, -⟩ := h
  exact ⟨p, hp, hproxy⟩

/-- A vote keeps the graph: the voter names a registered proxy, or the proxy it
had. -/
theorem ProxyGraph.updateVotes {s s' : State} {name proxy : AccountName}
    {producers : List AccountName} {voting : Bool} (hs : ProxyGraph s)
    (hkeep : ¬ voting → ∀ v, s.voters.find name = some v → v.proxy = proxy)
    (h : updateVotes env ctx s name proxy producers voting = .ok s') : ProxyGraph s' := by
  have hbase := updateVotes_base h
  obtain ⟨voter, u, d, m, hvalid, hvoter, hproxy, hu, hd, -, -⟩ := updateVotes_cases h
  have hset : ProxyGraph { s with
      voters := s.voters.set name { voter with producers, proxy } } := by
    refine hs.set (fun hp => hproxy.resolve_right (not_not.mpr hp)) fun hne => ?_
    by_cases hvoting : voting
    · refine .inr ⟨validateVote_proxy hvalid hne, ?_⟩
      obtain ⟨p, hp, hreg⟩ := castVote_proxy hd hne
      have hsame : SameBase s u.1 :=
        (SameBase.of_voters_eq (activateStake_voters s name voter)).trans (undoVote_handsOn hu).sameBase
      obtain ⟨p', hp', hbase'⟩ := hsame.find hp
      have hreg' : p'.isProxy := (congrArg VoterInfo.isProxy hbase').symm.trans
        (hreg.resolve_left (not_not.mpr hvoting))
      exact ⟨p', hp', hs.isProxy proxy p' hp' hreg'⟩
    · exact .inl (State.proxyOf_eq_some.mpr ⟨voter, hvoter, hkeep hvoting voter hvoter, hne⟩)
  refine hset.of_sameBase fun a => ?_
  rw [hbase a, OrderedTable.find_set]
  split
  · rw [hvoter]
    rfl
  · rfl

theorem ProxyGraph.voteproducer {s s' : State} {name proxy : AccountName}
    {producers : List AccountName} (hs : ProxyGraph s)
    (h : voteproducer env ctx s name proxy producers = .ok s') : ProxyGraph s' := by
  exact hs.updateVotes (fun hno => absurd rfl hno) (updateVotes_of_voteproducer h)

/-- The tables when `regproxy` starts to pass the change on. -/
theorem ProxyGraph.setIsProxy {s : State} {name : AccountName} {voter : VoterInfo} {b : Bool}
    (hs : ProxyGraph s) (hvoter : s.voters.find name = some voter)
    (hb : ¬ b ∨ voter.proxy = 0) :
    ProxyGraph { s with voters := s.voters.set name { voter with isProxy := b } } :=
  hs.set (fun hp => hb.resolve_left (not_not.mpr hp)) fun hne =>
    .inl (State.proxyOf_eq_some.mpr ⟨voter, hvoter, rfl, hne⟩)

theorem ProxyGraph.regproxy {s s' : State} {proxy : AccountName} {isproxy : Bool}
    (hs : ProxyGraph s) (h : regproxy env ctx s proxy isproxy = .ok s') : ProxyGraph s' := by
  obtain ⟨voter, hvoter, -, hb, h⟩ | ⟨-, rfl⟩ := regproxy_cases h
  · exact (hs.setIsProxy hvoter hb).of_sameBase (propagateWeightChange_sameBase h)
  · exact hs.set (fun _ => rfl) fun hne => absurd rfl hne

/-- The tables when a changed stake is voted with again. -/
theorem ProxyGraph.restake {s : State} {name : AccountName} {total : Int64}
    (hs : ProxyGraph s) :
    ProxyGraph { s with voters := s.voters.set name (restakedVoter s name total) } := by
  unfold restakedVoter
  split
  · exact hs.set (fun _ => rfl) fun hne => absurd rfl hne
  · rename_i v hv
    exact hs.set (hs.isProxy name v hv) fun hne =>
      .inl (State.proxyOf_eq_some.mpr ⟨v, hv, rfl, hne⟩)

theorem ProxyGraph.changeVoterStake {s s' : State} {from_ : AccountName} {n c : Asset}
    (hs : ProxyGraph s) (h : changeVoterStake env ctx s from_ n c = .ok s') : ProxyGraph s' := by
  obtain ⟨total, -, -, h⟩ := changeVoterStake_cases h
  have hrestaked : ProxyGraph { s with
      voters := s.voters.set from_ (restakedVoter s from_ total.amount) } := hs.restake
  exact hrestaked.of_sameBase (recastVote_sameBase (OrderedTable.find_set_self ..) h)

/-! ### What a change that is passed on does not reach -/

/-- What cannot be reached along the proxies is not written. -/
theorem propagateWithin_find {depth : ℕ} {s s' : State} {name : AccountName}
    (h : propagateWithin env ctx depth s name = .ok s') {a : AccountName}
    (ha : ¬ Relation.ReflTransGen (Edge s.proxyOf) name a) :
    s'.voters.find a = s.voters.find a := by
  induction depth generalizing s s' name with
  | zero => cases h
  | succ depth ih =>
      obtain ⟨voter, m, hvoter, -, rfl, hm⟩ := propagateWithin_cases h
      have hne : a ≠ name := fun he => ha (he ▸ .refl)
      have hm : m.voters.find a = s.voters.find a := by
        rcases hm with ⟨-, hproxy, proxy, hfind, hrec⟩ | ⟨-, -, hfold⟩ | ⟨-, rfl⟩
        · have hedge : Edge s.proxyOf name voter.proxy :=
            State.proxyOf_eq_some.mpr ⟨voter, hvoter, rfl, hproxy⟩
          have hne' : a ≠ voter.proxy := fun he => ha (he ▸ .single hedge)
          rw [ih hrec, OrderedTable.find_set_of_ne _ hne']
          rw [(SameBase.setProxied hfind _).proxyOf]
          exact fun hreach => ha (.head hedge hreach)
        · have hvoters : m.voters = s.voters := Rollback.foldlM_induction
            (I := fun m => m.voters = s.voters)
            (fun _ _ _ _ hI hb => (addToProducers_voters hb).trans hI) rfl hfold
          rw [hvoters]
        · rfl
      rw [OrderedTable.find_modify, if_neg hne, hm]

/-- A new proxy does not lead back to the voter. -/
theorem ProxyGraph.not_reach_voter {s : State} {name proxy : AccountName} {voter : VoterInfo}
    {voting : Bool} (hs : ProxyGraph s) (hvoter : s.voters.find name = some voter)
    (hkeep : ¬ voting → voter.proxy = proxy) (hne : proxy ≠ 0) (hname : proxy ≠ name)
    (hreg : voting → ∃ p, s.voters.find proxy = some p ∧ p.isProxy) :
    (¬ Relation.ReflTransGen (Edge s.proxyOf) proxy name) ∧
      ∀ b, Relation.TransGen (Edge s.proxyOf) proxy b → voter.proxy ≠ b := by
  by_cases hvoting : voting
  · obtain ⟨p, hp, hproxy⟩ := hreg hvoting
    have hsink : ∀ b, ¬ Edge s.proxyOf proxy b := fun b hb => by
      obtain ⟨p', hp', rfl, hne'⟩ := State.proxyOf_eq_some.mp hb
      rw [hp] at hp'
      cases hp'
      exact hne' (hs.isProxy proxy p hp hproxy)
    refine ⟨fun hreach => ?_, fun b hreach => ?_⟩
    · rcases hreach.cases_head with he | ⟨b, hb, -⟩
      · exact hname he
      · exact hsink b hb
    · obtain ⟨b', hb', -⟩ := Relation.TransGen.head'_iff.mp hreach
      exact absurd hb' (hsink b')
  · have hedge : Edge s.proxyOf name proxy :=
      State.proxyOf_eq_some.mpr ⟨voter, hvoter, hkeep hvoting, hne⟩
    refine ⟨fun hreach => hs.acyclic name (.head' hedge hreach), fun b hreach he => ?_⟩
    rw [hkeep hvoting] at he
    exact hs.acyclic proxy (he ▸ hreach)

/-- What a successful call did, in a state whose proxies are in order: the row
of the voter waits until the change has been passed on. -/
theorem ProxyGraph.propagateWithin_cases {depth : ℕ} {s s' : State} {name : AccountName}
    (hs : ProxyGraph s) (h : propagateWithin env ctx (depth + 1) s name = .ok s') :
    ∃ voter m, s.voters.find name = some voter ∧ m.voters.find name = some voter ∧
      s' = { m with
        voters := m.voters.modify name fun v =>
          { v with lastVoteWeight := voter.weight env ctx } } ∧
      ((voter.proxy ≠ 0 ∧ Edge s.proxyOf name voter.proxy ∧
          ∃ proxy, s.voters.find voter.proxy = some proxy ∧
            propagateWithin env ctx depth { s with
              voters := s.voters.set voter.proxy
                { proxy with proxiedVoteWeight :=
                  proxy.proxiedVoteWeight + (voter.weight env ctx - voter.lastVoteWeight) } }
              voter.proxy = .ok m) ∨
        (voter.proxy = 0 ∧ m.voters = s.voters ∧
          voter.producers.foldlM
            (addToProducers (voter.weight env ctx - voter.lastVoteWeight)) s = .ok m) ∨
        m = { s with skipped := s.skipped +
          if voter.weight env ctx - voter.lastVoteWeight = 0 then 0 else 1 }) := by
  obtain ⟨voter, m, hvoter, -, hs', hm⟩ := System.propagateWithin_cases h
  rcases hm with ⟨-, hne, proxy, hfind, hrec⟩ | ⟨-, hzero, hfold⟩ | ⟨-, hskip⟩
  · have hedge : Edge s.proxyOf name voter.proxy :=
      State.proxyOf_eq_some.mpr ⟨voter, hvoter, rfl, hne⟩
    have hnotself : name ≠ voter.proxy := fun he => by
      rw [← he] at hedge
      exact hs.acyclic name (.single hedge)
    have hself : m.voters.find name = some voter := by
      rw [propagateWithin_find hrec, OrderedTable.find_set_of_ne _ hnotself, hvoter]
      rw [(SameBase.setProxied hfind _).proxyOf]
      exact fun hback => hs.acyclic name (.head' hedge hback)
    exact ⟨voter, m, hvoter, hself, hs', .inl ⟨hne, hedge, proxy, hfind, hrec⟩⟩
  · have hsame : m.voters = s.voters := Rollback.foldlM_induction
      (I := fun m => m.voters = s.voters)
      (fun _ _ _ _ hI hb => (addToProducers_voters hb).trans hI) rfl hfold
    exact ⟨voter, m, hvoter, hsame ▸ hvoter, hs', .inr (.inl ⟨hzero, hsame, hfold⟩)⟩
  · exact ⟨voter, m, hvoter, hskip ▸ hvoter, hs', .inr (.inr hskip)⟩

/-- Handing weight to a proxy writes only what the proxy leads to. -/
theorem setProxied_find {s m : State} {k : AccountName} {v : VoterInfo} {x : ℚ}
    (hv : s.voters.find k = some v)
    (h : propagateWeightChange env ctx
      { s with voters := s.voters.set k { v with proxiedVoteWeight := x } } k = .ok m)
    {a : AccountName} (ha : ¬ Relation.ReflTransGen (Edge s.proxyOf) k a) :
    m.voters.find a = s.voters.find a := by
  have hne : a ≠ k := fun he => ha (he ▸ .refl)
  rw [propagateWithin_find h, OrderedTable.find_set_of_ne _ hne]
  rw [(SameBase.setProxied hv x).proxyOf]
  exact ha

/-- The row of a voter that the proxy does not lead back to is not written. -/
theorem HandsOn.find {s m : State} {k : AccountName} (h : HandsOn env ctx s m k)
    {a : AccountName} (ha : k ≠ 0 → ¬ Relation.ReflTransGen (Edge s.proxyOf) k a) :
    m.voters.find a = s.voters.find a := by
  cases h with
  | same hm => rw [hm]
  | proxy p x hne hp hm => exact setProxied_find hp hm (ha hne)

theorem ProxyGraph.not_reach_self {s : State} {name : AccountName} {voter : VoterInfo}
    (hs : ProxyGraph s) (hvoter : s.voters.find name = some voter) (hne : voter.proxy ≠ 0) :
    ¬ Relation.ReflTransGen (Edge s.proxyOf) voter.proxy name := fun hback =>
  have hedge : Edge s.proxyOf name voter.proxy :=
    State.proxyOf_eq_some.mpr ⟨voter, hvoter, rfl, hne⟩
  hs.acyclic name (.head' hedge hback)

/-- The phases of a successful vote, in a state whose proxies are in order: the
voter's own row waits until the end, and the new proxy leads back neither to the
voter nor to the old proxy. -/
theorem ProxyGraph.updateVotes_phases {s s' : State} {name proxy : AccountName}
    {producers : List AccountName} {voting : Bool} (hs : ProxyGraph s)
    (hkeep : ¬ voting → ∀ v, s.voters.find name = some v → v.proxy = proxy)
    (h : System.updateVotes env ctx s name proxy producers voting = .ok s') :
    ∃ voter u d m, validateVote name proxy producers = .ok () ∧
      s.voters.find name = some voter ∧
      undoVote env ctx (activateStake ctx s name voter) voter = .ok u ∧
      castVote env ctx u.1 u.2 proxy producers (voter.weight env ctx) voting = .ok d ∧
      d.2.rows.foldlM (applyDelta voting) d.1 = .ok m ∧
      s' = { m with
        voters := m.voters.modify name fun av =>
          { av with lastVoteWeight := voter.weight env ctx, producers, proxy } } ∧
      ProxyGraph u.1 ∧ d.1.voters.find name = some voter ∧ m.voters = d.1.voters ∧
      (proxy ≠ 0 → ∀ b, Relation.TransGen (Edge u.1.proxyOf) proxy b → voter.proxy ≠ b) := by
  obtain ⟨voter, u, d, m, hvalid, hvoter, -, hu, hd, hm, rfl⟩ := updateVotes_cases h
  have hactivated : SameBase s (activateStake ctx s name voter) :=
    .of_voters_eq (activateStake_voters s name voter)
  have hs₀ := hs.of_sameBase hactivated
  have hvoter₀ : (activateStake ctx s name voter).voters.find name = some voter := by
    rw [activateStake_voters, hvoter]
  have hsu := hs₀.of_sameBase (undoVote_handsOn hu).sameBase
  have hself : u.1.voters.find name = some voter :=
    ((undoVote_handsOn hu).find (hs₀.not_reach_self hvoter₀)).trans hvoter₀
  have hreach := fun hne : proxy ≠ 0 => hsu.not_reach_voter hself
    (fun hno => hkeep hno voter hvoter) hne (validateVote_proxy hvalid hne) fun hvoting => by
      obtain ⟨p, hp, hproxy⟩ := castVote_proxy hd hne
      exact ⟨p, hp, hproxy.resolve_left (not_not.mpr hvoting)⟩
  have hsame : m.voters = d.1.voters := Rollback.foldlM_induction
    (I := fun m => m.voters = d.1.voters)
    (fun _ _ _ _ hI hb => (applyDelta_voters hb).trans hI) rfl hm
  exact ⟨voter, u, d, m, hvalid, hvoter, hu, hd, hm, rfl, hsu,
    ((castVote_handsOn hd).find fun hne => (hreach hne).1).trans hself, hsame,
    fun hne => (hreach hne).2⟩

/-! ### Every event -/

theorem ProxyGraph.of_sameVotes {s s' : State} (hs : ProxyGraph s) (h : SameVotes s s') :
    ProxyGraph s' := hs.of_sameBase (.of_voters_eq h.voters)

theorem ProxyGraph.exec {s s' : Chain} {e : Event} (hs : ProxyGraph s.system)
    (hrows : StakeRows s.system) (h : exec env s e = .ok s') : ProxyGraph s'.system := by
  obtain ⟨sys, hsame, heffect⟩ := exec_votes hrows h
  have hsys := hs.of_sameVotes hsame
  cases heffect with
  | restake _ _ _ he => exact hsys.changeVoterStake he
  | vote _ he => exact hsys.voteproducer he
  | register he => exact hsys.regproxy he
  | same he => exact hsys.of_sameVotes he

end Xidata.System
