import Xidata.System.ProxyGraph

/-!
Passing a change on terminates.  The contract guards the recursion with
assertions that only corrupt data could trip; none of them ever fails, and the
recursion ends within as many calls as there are voters.
-/

namespace Xidata.System

open Eosiolib SuccessorGraph

variable {env : Env} {ctx : Ctx}

/-! ### The assertions about proxies

Those that guard against corrupt data, and the bound on the recursion. -/

def proxyFailures : List Failure :=
  [.recursionLimit .propagateWeightChange,
    .assertion .multiIndex "object is not in multi_index",
    .assertion .propagateWeightChange
      "account registered as a proxy is not allowed to use a proxy",
    .assertion .propagateWeightChange "proxy not found",
    .assertion .updateVotes "old proxy not found"]

theorem not_proxyFailure {site : Site} {msg : String}
    (h : site ∉ [Site.multiIndex, .propagateWeightChange, .updateVotes]) :
    Failure.assertion site msg ∉ proxyFailures := by
  simp only [List.mem_cons, List.not_mem_nil, or_false, not_or] at h
  simp [proxyFailures, h]

theorem ProxyGraph.endsWithin {s : State} (hs : ProxyGraph s) {name : AccountName}
    (hname : (s.voters.find name).isSome) :
    EndsWithin s.proxyOf (s.voters.size + 1) name := by
  have hmem : ∀ a, (s.voters.find a).isSome → a ∈ s.voters.keys.toFinset := fun a ha => by
    obtain ⟨v, hv⟩ := Option.isSome_iff_exists.mp ha
    exact List.mem_toFinset.mpr (OrderedTable.mem_keys.mpr ⟨v, hv⟩)
  have hcard : s.voters.keys.toFinset.card ≤ s.voters.size + 1 := by
    have hlength : s.voters.keys.length = s.voters.size := List.length_map ..
    have hle := List.toFinset_card_le s.voters.keys
    omega
  exact hs.acyclic.endsWithin (fun a b hab => hmem b (hs.registered a b hab)) (hmem name hname)
    hcard

theorem propagateWithin_avoids {depth : ℕ} {s : State} {name : AccountName} (hs : ProxyGraph s)
    (hname : (s.voters.find name).isSome) (hends : EndsWithin s.proxyOf depth name) :
    Rollback.Avoids (· ∈ proxyFailures) (propagateWithin env ctx depth s name) := by
  induction depth generalizing s name with
  | zero => exact hends.elim
  | succ depth ih =>
      obtain ⟨voter, hvoter⟩ := Option.isSome_iff_exists.mp hname
      unfold propagateWithin
      rw [hvoter, getRow, Rollback.ok_bind]
      refine (avoids_eosioAssert fun hno => absurd ?_ hno).bind fun _ _ => ?_
      · by_cases hproxy : voter.isProxy
        · exact .inl (hs.isProxy name voter hvoter hproxy)
        · exact .inr hproxy
      dsimp only
      split
      · split
        · rename_i hne
          have hedge : s.proxyOf name = some voter.proxy :=
            State.proxyOf_eq_some.mpr ⟨voter, hvoter, rfl, hne⟩
          have hproxy := hs.registered _ _ hedge
          refine (avoids_getRow fun hnone => ?_).bind fun proxy hget => ?_
          · rw [hnone] at hproxy
            cases hproxy
          have hbase := SameBase.setProxied (getRow_eq_ok.mp hget)
            (proxy.proxiedVoteWeight + (voter.weight env ctx - voter.lastVoteWeight))
          refine Rollback.Avoids.bind (ih (hs.of_sameBase hbase) ?_ ?_) fun _ _ =>
            Rollback.avoids_pure _
          · rw [hbase.isSome]
            exact hproxy
          · rw [hbase.proxyOf]
            exact hends voter.proxy hedge
        · refine Rollback.Avoids.bind ?_ fun _ _ => Rollback.avoids_pure _
          refine Rollback.avoids_foldlM (I := fun _ => True) (fun _ _ _ _ => ?_)
            (fun _ _ _ _ _ _ => trivial) trivial
          exact (avoids_getRow fun _ => by simp [proxyFailures]).bind fun _ _ =>
            Rollback.avoids_pure _
      · exact Rollback.avoids_pure _

theorem propagateWeightChange_avoids {s : State} {name : AccountName} (hs : ProxyGraph s)
    (hname : (s.voters.find name).isSome) :
    Rollback.Avoids (· ∈ proxyFailures) (propagateWeightChange env ctx s name) :=
  propagateWithin_avoids hs hname (hs.endsWithin hname)

/-- Handing weight to a proxy and passing the change on. -/
theorem setProxied_avoids {s : State} {name : AccountName} {v : VoterInfo} (hs : ProxyGraph s)
    (hv : s.voters.find name = some v) (x : ℚ) :
    Rollback.Avoids (· ∈ proxyFailures) (propagateWeightChange env ctx
      { s with voters := s.voters.set name { v with proxiedVoteWeight := x } } name) := by
  have hbase := SameBase.setProxied hv x
  refine propagateWeightChange_avoids (hs.of_sameBase hbase) ?_
  rw [hbase.isSome, hv]
  rfl

theorem undoVote_avoids {s : State} {name : AccountName} {voter : VoterInfo} (hs : ProxyGraph s)
    (hvoter : s.voters.find name = some voter) :
    Rollback.Avoids (· ∈ proxyFailures) (undoVote env ctx s voter) := by
  unfold undoVote
  split
  · split
    · rename_i hne
      have hproxy := hs.registered name voter.proxy
        (State.proxyOf_eq_some.mpr ⟨voter, hvoter, rfl, hne⟩)
      refine (avoids_getRow fun hnone => ?_).bind fun oldProxy hget => ?_
      · rw [hnone] at hproxy
        cases hproxy
      · exact (setProxied_avoids hs (getRow_eq_ok.mp hget) _).bind fun _ _ =>
          Rollback.avoids_pure _
    · exact Rollback.avoids_pure _
  · exact Rollback.avoids_pure _

theorem castVote_avoids {s : State} {d : ProducerDeltas} {proxy : AccountName}
    {producers : List AccountName} {w : ℚ} {voting : Bool} (hs : ProxyGraph s) :
    Rollback.Avoids (· ∈ proxyFailures) (castVote env ctx s d proxy producers w voting) := by
  unfold castVote
  split
  · refine (avoids_getRow fun _ => by simp [proxyFailures]).bind fun newProxy hget => ?_
    refine (avoids_eosioAssert fun _ => by simp [proxyFailures]).bind fun _ _ => ?_
    split
    · exact (setProxied_avoids hs (getRow_eq_ok.mp hget) _).bind fun _ _ =>
        Rollback.avoids_pure _
    · exact Rollback.avoids_pure _
  · split <;> exact Rollback.avoids_pure _

theorem applyDelta_avoids {voting : Bool} {s : State} {pd : AccountName × ℚ × Bool} :
    Rollback.Avoids (· ∈ proxyFailures) (applyDelta voting s pd) := by
  unfold applyDelta
  split <;> exact (avoids_eosioAssert fun _ => by simp [proxyFailures]).bind fun _ _ =>
    Rollback.avoids_pure _

theorem validateVote_avoids {name proxy : AccountName} {producers : List AccountName} :
    Rollback.Avoids (· ∈ proxyFailures) (validateVote name proxy producers) := by
  unfold validateVote
  split
  · exact (avoids_eosioAssert fun _ => by simp [proxyFailures]).bind fun _ _ =>
      avoids_eosioAssert fun _ => by simp [proxyFailures]
  · exact (avoids_eosioAssert fun _ => by simp [proxyFailures]).bind fun _ _ =>
      avoids_eosioAssert fun _ => by simp [proxyFailures]

theorem updateVotes_avoids {s : State} {name proxy : AccountName}
    {producers : List AccountName} {voting : Bool} (hs : ProxyGraph s) :
    Rollback.Avoids (· ∈ proxyFailures)
      (updateVotes env ctx s name proxy producers voting) := by
  unfold updateVotes
  refine validateVote_avoids.bind fun _ _ => ?_
  refine (avoids_getRow fun _ => by simp [proxyFailures]).bind fun voter hget => ?_
  refine (avoids_eosioAssert fun _ => by simp [proxyFailures]).bind fun _ _ => ?_
  have hactivated := SameBase.of_voters_eq (activateStake_voters (c := ctx) s name voter)
  have hvoter : (activateStake ctx s name voter).voters.find name = some voter := by
    rw [activateStake_voters]
    exact getRow_eq_ok.mp hget
  have hs₁ := hs.of_sameBase hactivated
  refine (undoVote_avoids hs₁ hvoter).bind fun u hu => ?_
  refine (castVote_avoids (hs₁.of_sameBase (undoVote_handsOn hu).sameBase)).bind fun d _ => ?_
  refine Rollback.Avoids.bind ?_ fun _ _ => Rollback.avoids_pure _
  exact Rollback.avoids_foldlM (I := fun _ => True) (fun _ _ _ _ => applyDelta_avoids)
    (fun _ _ _ _ _ _ => trivial) trivial

theorem voteproducer_avoids {s : State} {name proxy : AccountName}
    {producers : List AccountName} (hs : ProxyGraph s) :
    Rollback.Avoids (· ∈ proxyFailures) (voteproducer env ctx s name proxy producers) :=
  (avoids_requireAuth (by simp [proxyFailures])).bind fun _ _ => updateVotes_avoids hs

theorem regproxy_avoids {s : State} {proxy : AccountName} {isproxy : Bool}
    (hs : ProxyGraph s) :
    Rollback.Avoids (· ∈ proxyFailures) (regproxy env ctx s proxy isproxy) := by
  refine (avoids_requireAuth (by simp [proxyFailures])).bind fun _ _ => ?_
  split
  · rename_i voter hvoter
    refine (avoids_eosioAssert fun _ => not_proxyFailure (by decide)).bind fun _ _ => ?_
    refine (avoids_eosioAssert fun _ => not_proxyFailure (by decide)).bind fun _ hb => ?_
    refine propagateWeightChange_avoids (hs.setIsProxy hvoter (eosioAssert_eq_ok.mp hb)) ?_
    rw [OrderedTable.find_set_self]
    rfl
  · exact Rollback.avoids_pure _

/-! ### A change of stake asserts nothing else about proxies -/

theorem compare_avoids {p : Int64 → Int64 → Bool} {a b : Asset} :
    Rollback.Avoids (· ∈ proxyFailures) (Asset.compare p a b) :=
  Asset.avoids_compare p a b fun _ => not_proxyFailure (by decide)

theorem add_avoids {a b : Asset} : Rollback.Avoids (· ∈ proxyFailures) (a.add b) :=
  Asset.avoids_add a b fun _ => not_proxyFailure (by decide)

theorem changebwAssert_avoids {test : Prop} [Decidable test] {msg : String} :
    Rollback.Avoids (· ∈ proxyFailures) (eosioAssert .changebw test msg) :=
  avoids_eosioAssert fun _ => not_proxyFailure (by decide)

theorem checkWeights_avoids {net cpu : Asset} {netMsg cpuMsg : String} :
    Rollback.Avoids (· ∈ proxyFailures) (checkWeights net cpu netMsg cpuMsg) := by
  refine compare_avoids.bind fun _ _ => changebwAssert_avoids.bind fun _ _ => ?_
  refine compare_avoids.bind fun _ _ => changebwAssert_avoids.bind fun _ _ => ?_
  exact compare_avoids.bind fun _ _ => compare_avoids.bind fun _ _ =>
    Rollback.avoids_pure _

theorem updateDelband_avoids {t : OrderedTable Scoped DelegatedBandwidth}
    {from_ receiver : AccountName} {n c : Asset} :
    Rollback.Avoids (· ∈ proxyFailures) (updateDelband t from_ receiver n c) := by
  refine Rollback.Avoids.bind ?_ fun _ _ => checkWeights_avoids.bind fun _ _ =>
    Rollback.avoids_pure _
  unfold delbandRow
  split
  · exact Rollback.avoids_pure _
  · exact add_avoids.bind fun _ _ => add_avoids.bind fun _ _ =>
      Rollback.avoids_pure _

theorem updateTotals_avoids {t : OrderedTable AccountName UserResources}
    {receiver : AccountName} {n c : Asset} :
    Rollback.Avoids (· ∈ proxyFailures) (updateTotals t receiver n c) := by
  refine Rollback.Avoids.bind ?_ fun _ _ => checkWeights_avoids.bind fun _ _ =>
    Rollback.avoids_pure _
  unfold totalsRow
  split
  · exact Rollback.avoids_pure _
  · exact add_avoids.bind fun _ _ => add_avoids.bind fun _ _ =>
      Rollback.avoids_pure _

theorem settleRefund_avoids {amount delta : Asset} :
    Rollback.Avoids (· ∈ proxyFailures) (settleRefund amount delta) :=
  (Asset.avoids_sub _ _ fun _ => not_proxyFailure (by decide)).bind fun _ _ =>
    compare_avoids.bind fun _ _ => Rollback.avoids_pure _

theorem updateRefund_avoids {t : OrderedTable AccountName RefundRequest} {from_ : AccountName}
    {n c : Asset} : Rollback.Avoids (· ∈ proxyFailures) (updateRefund ctx t from_ n c) := by
  refine compare_avoids.bind fun _ _ => compare_avoids.bind fun _ _ => ?_
  split
  · refine settleRefund_avoids.bind fun _ _ => settleRefund_avoids.bind fun _ _ => ?_
    refine compare_avoids.bind fun _ _ => changebwAssert_avoids.bind fun _ _ => ?_
    refine compare_avoids.bind fun _ _ => changebwAssert_avoids.bind fun _ _ => ?_
    refine compare_avoids.bind fun _ _ => compare_avoids.bind fun _ _ => ?_
    split <;> exact Rollback.avoids_pure _
  · split <;> exact Rollback.avoids_pure _

theorem changeRefund_avoids {s : State} {source from_ receiver : AccountName} {n c : Asset}
    {transfer : Bool} :
    Rollback.Avoids (· ∈ proxyFailures)
      (changeRefund ctx s source from_ receiver n c transfer) := by
  refine Rollback.Avoids.bind ?_ fun _ _ => add_avoids.bind fun _ _ =>
    compare_avoids.bind fun _ _ => Rollback.avoids_pure _
  split
  · exact updateRefund_avoids
  · exact Rollback.avoids_pure _

theorem changeVoterStake_avoids {s : State} {from_ : AccountName} {n c : Asset}
    (hs : ProxyGraph s) :
    Rollback.Avoids (· ∈ proxyFailures) (changeVoterStake env ctx s from_ n c) := by
  refine add_avoids.bind fun total _ => changebwAssert_avoids.bind fun _ _ => ?_
  refine Rollback.Avoids.bind ?_ fun _ _ => ?_
  · split
    · exact avoids_eosioAssert fun _ => not_proxyFailure (by decide)
    · exact Rollback.avoids_pure _
  · unfold recastVote
    split
    · exact updateVotes_avoids hs.restake
    · exact Rollback.avoids_pure _

theorem changeRefund_voters {s : State} {source from_ receiver : AccountName} {n c : Asset}
    {transfer : Bool} {r : State × List Token.Inline}
    (h : changeRefund ctx s source from_ receiver n c transfer = .ok r) :
    r.1.voters = s.voters := by
  simp only [changeRefund, Rollback.bind_eq_ok, Rollback.pure_eq_ok] at h
  obtain ⟨_, -, _, -, _, -, rfl⟩ := h
  rfl

theorem changebw_avoids {s : State} {source receiver : AccountName} {n c : Asset}
    {transfer : Bool} (hs : ProxyGraph s) :
    Rollback.Avoids (· ∈ proxyFailures) (changebw env ctx s source receiver n c transfer) := by
  refine (avoids_requireAuth (by simp [proxyFailures])).bind fun _ _ => ?_
  refine compare_avoids.bind fun _ _ => compare_avoids.bind fun _ _ => ?_
  refine changebwAssert_avoids.bind fun _ _ => add_avoids.bind fun _ _ => ?_
  refine changebwAssert_avoids.bind fun _ _ => updateDelband_avoids.bind fun _ _ => ?_
  refine updateTotals_avoids.bind fun _ _ => ?_
  refine Rollback.Avoids.bind ?_ fun r hr => ?_
  · split
    · exact changeRefund_avoids
    · exact Rollback.avoids_pure _
  · refine Rollback.Avoids.bind ?_ fun _ _ => Rollback.avoids_pure _
    have hvoters : r.1.voters = s.voters := by
      split at hr
      · have hr := changeRefund_voters hr
        exact hr
      · cases hr
        rfl
    exact changeVoterStake_avoids (hs.of_sameBase (.of_voters_eq hvoters))

theorem delegatebw_avoids {s : State} {from_ receiver : AccountName} {n c : Asset}
    {transfer : Bool} (hs : ProxyGraph s) :
    Rollback.Avoids (· ∈ proxyFailures) (delegatebw env ctx s from_ receiver n c transfer) := by
  have hassert : ∀ {test : Prop} [Decidable test] {msg : String},
      Rollback.Avoids (· ∈ proxyFailures) (eosioAssert .delegatebw test msg) :=
    avoids_eosioAssert fun _ => not_proxyFailure (by decide)
  refine compare_avoids.bind fun _ _ => hassert.bind fun _ _ => ?_
  refine compare_avoids.bind fun _ _ => hassert.bind fun _ _ => ?_
  refine add_avoids.bind fun _ _ => compare_avoids.bind fun _ _ => ?_
  exact hassert.bind fun _ _ => hassert.bind fun _ _ => changebw_avoids hs

theorem undelegatebw_avoids {s : State} {from_ receiver : AccountName} {n c : Asset}
    (hs : ProxyGraph s) :
    Rollback.Avoids (· ∈ proxyFailures) (undelegatebw env ctx s from_ receiver n c) := by
  have hassert : ∀ {test : Prop} [Decidable test] {msg : String},
      Rollback.Avoids (· ∈ proxyFailures) (eosioAssert .undelegatebw test msg) :=
    avoids_eosioAssert fun _ => not_proxyFailure (by decide)
  refine compare_avoids.bind fun _ _ => hassert.bind fun _ _ => ?_
  refine compare_avoids.bind fun _ _ => hassert.bind fun _ _ => ?_
  refine add_avoids.bind fun _ _ => compare_avoids.bind fun _ _ => ?_
  exact hassert.bind fun _ _ => hassert.bind fun _ _ => changebw_avoids hs

/-! ### Every run -/

/-- The actions that vote or change what a vote weighs. -/
def Action.isVoting : Action → Bool
  | .delegatebw .. | .undelegatebw .. | .regproxy .. | .voteproducer .. => true
  | _ => false

theorem apply_avoids {token : Token.State} {s : State} {a : Action} (hs : ProxyGraph s)
    (ha : a.isVoting) : Rollback.Avoids (· ∈ proxyFailures) (apply env ctx token s a) := by
  cases a with
  | delegatebw => exact delegatebw_avoids hs
  | undelegatebw => exact undelegatebw_avoids hs
  | regproxy => exact (regproxy_avoids hs).map _
  | voteproducer => exact (voteproducer_avoids hs).map _
  | _ => cases ha

/-- After every run the graph of proxies is acyclic and names only voters, and
no action that votes or changes what a vote weighs fails because of it. -/
theorem proxy_graph_acyclic (env : Env) (es : List Event) :
    ProxyGraph (run env {} es).system ∧
      ∀ (ctx : Ctx) (a : Action) (f : Failure), a.isVoting →
        apply env ctx (run env {} es).token (run env {} es).constructed.system a = .error f →
        f ∉ proxyFailures := by
  have hinv : StakeRows (run env {} es).system ∧ ProxyGraph (run env {} es).system :=
    Rollback.run_induction (I := fun s : Chain => StakeRows s.system ∧ ProxyGraph s.system)
      (fun _ _ _ hs h => ⟨hs.1.exec h, hs.2.exec hs.1 h⟩) es ⟨stakeRows_init, proxyGraph_init⟩
  refine ⟨hinv.2, fun ctx a f ha h => apply_avoids (hinv.2.of_sameVotes ?_) ha f h⟩
  exact constructed_sameVotes _

end Xidata.System
