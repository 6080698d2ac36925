import Xidata.System.Drift

/-!
Votes keep the accounts.  A vote takes the old weight back, casts the new one,
and applies the listed changes to the producers; each of these phases makes the
accounts drift, and when the voter's row is written the drift is gone.
-/

namespace Xidata.System

open Eosiolib SuccessorGraph

variable {env : Env} {ctx : Ctx}

/-! ### The deltas of a vote -/

namespace ProducerDeltas

/-- The change listed for `p`. -/
def delta (d : ProducerDeltas) (p : AccountName) : ℚ := (d.find p).elim 0 Prod.fst

theorem find_add (d : ProducerDeltas) (x : ℚ) (new : Bool) (k p : AccountName) :
    (d.add x new k).find p = if p = k then some (d.delta k + x, new) else d.find p := by
  rw [add, OrderedTable.find_set]
  split_ifs <;> rfl

theorem delta_foldl {x : ℚ} {new : Bool} {l : List AccountName} (hl : l.Nodup)
    (d : ProducerDeltas) (p : AccountName) :
    (l.foldl (fun d p => d.add x new p) d).delta p = d.delta p + if p ∈ l then x else 0 := by
  induction l generalizing d with
  | nil => simp
  | cons k l ih =>
      obtain ⟨hk, hl⟩ := List.nodup_cons.mp hl
      rw [List.foldl_cons, ih hl, delta, find_add]
      by_cases hp : p = k
      · rw [hp, if_pos rfl, if_neg hk, if_pos (by simp), add_zero]
        rfl
      · rw [if_neg hp]
        simp [hp, delta]

/-- An entry is of the list and marked `new`, or it was there. -/
theorem find_foldl {x : ℚ} {new : Bool} {l : List AccountName} {d : ProducerDeltas}
    {p : AccountName} {r : ℚ × Bool}
    (h : (l.foldl (fun d p => d.add x new p) d).find p = some r) :
    r.2 = new ∨ d.find p = some r := by
  induction l generalizing d with
  | nil => exact .inr h
  | cons k l ih =>
      rcases ih h with hnew | hold
      · exact .inl hnew
      · rw [find_add] at hold
        split at hold
        · cases hold
          exact .inl rfl
        · exact .inr hold

theorem isSome_foldl {x : ℚ} {new : Bool} {l : List AccountName} {d : ProducerDeltas}
    {p : AccountName} :
    ((l.foldl (fun d p => d.add x new p) d).find p).isSome ↔ p ∈ l ∨ (d.find p).isSome := by
  induction l generalizing d with
  | nil => simp
  | cons k l ih =>
      rw [List.foldl_cons, ih, find_add]
      by_cases hp : p = k <;> simp [hp]

theorem sum_rows (d : ProducerDeltas) (p : AccountName) :
    (d.rows.map fun pd => if p = pd.1 then pd.2.1 else 0).sum = d.delta p := by
  have hsum := d.sum_eq_erase p fun k r => if p = k then r.1 else 0
  have hrest : (d.erase p).sum (fun k r => if p = k then r.1 else 0) = 0 := by
    refine OrderedTable.sum_eq_zero fun k r hr => if_neg fun he => ?_
    rw [he, OrderedTable.find_erase_self] at hr
    cases hr
  rw [hrest, add_zero] at hsum
  refine hsum.trans ?_
  rw [delta]
  cases d.find p with
  | none => rfl
  | some r => exact if_pos rfl

end ProducerDeltas

/-- Listed changes applied to producers that are all different and registered,
none of which loses more than it has. -/
theorem applyDeltas_drifted {voting : Bool} {s s' : State} {l : List (AccountName × ℚ × Bool)}
    (hl : l.Pairwise fun a b => a.1 < b.1)
    (hnonneg : ∀ pd ∈ l, 0 ≤ s.totalVotes pd.1 + pd.2.1)
    (hreg : ∀ pd ∈ l, pd.2.2 = false → (s.producers.find pd.1).isSome)
    (h : l.foldlM (applyDelta voting) s = .ok s') :
    Drifted s s' (fun p => (l.map fun pd => if p = pd.1 then pd.2.1 else 0).sum) 0 ∧
      ∀ pd ∈ l, (s.producers.find pd.1).isSome := by
  induction l generalizing s with
  | nil =>
      cases h
      exact ⟨Drifted.of_eq rfl rfl rfl, fun _ hmem => by cases hmem⟩
  | cons pd l ih =>
      obtain ⟨hlt, hl⟩ := List.pairwise_cons.mp hl
      rw [List.foldlM_cons, Rollback.bind_eq_ok] at h
      obtain ⟨m, hm, h⟩ := h
      unfold applyDelta at hm
      split at hm
      · rename_i info hinfo
        simp only [Rollback.bind_eq_ok, eosioAssert_eq_ok, exists_const,
          Rollback.pure_eq_ok] at hm
        obtain ⟨-, rfl⟩ := hm
        have hvotes := hnonneg pd (by simp)
        rw [State.totalVotes, hinfo, Option.elim_some] at hvotes
        rw [if_neg (not_lt.mpr hvotes)] at h
        have hgrows := Grows.setProducer s pd.1 { info with totalVotes := info.totalVotes + pd.2.1 }
          (s.global.totalProducerVoteWeight + pd.2.1)
        have hother : ∀ p, p ≠ pd.1 →
            (s.producers.set pd.1 { info with totalVotes := info.totalVotes + pd.2.1 }).find p =
              s.producers.find p := fun p hp => OrderedTable.find_set_of_ne _ hp _
        obtain ⟨hdrift, hsome⟩ := ih hl
          (fun pd' hpd' => by
            rw [State.totalVotes, hother _ (hlt pd' hpd').ne']
            exact hnonneg pd' (List.mem_cons_of_mem _ hpd'))
          (fun pd' hpd' hf => hgrows.registered _ (hreg pd' (List.mem_cons_of_mem _ hpd') hf)) h
        refine ⟨((drifted_setProducer hinfo _).trans hdrift).congr (fun p => ?_)
          fun _ => add_zero _, fun pd' hpd' => ?_⟩
        · rw [List.map_cons, List.sum_cons]
        · rcases List.mem_cons.mp hpd' with rfl | hpd'
          · rw [hinfo]
            rfl
          · have hfound := hsome pd' hpd'
            rwa [hother _ (hlt pd' hpd').ne'] at hfound
      · rename_i hnone
        simp only [Rollback.bind_eq_ok, eosioAssert_eq_ok, exists_const] at hm
        have hfound := hreg pd (by simp) (Bool.eq_false_iff.mpr hm.1)
        rw [hnone] at hfound
        cases hfound

/-! ### The phases of a vote -/

/-- The state between two actions. -/
structure VoteInvariant (s : State) : Prop where
  graph : ProxyGraph s
  voters : VotersOk s
  weights : WeightsOk s
  agree : VotesAgree s

theorem VoteInvariant.drift {s : State} (hs : VoteInvariant s) :
    (∀ p, s.votesDrift p = 0) ∧ ∀ q, s.proxyDrift q = 0 :=
  ⟨fun p => sub_eq_zero.mpr (hs.agree.votes p), fun q => sub_eq_zero.mpr (hs.agree.proxied q)⟩

/-- What a part of a vote leaves behind. -/
structure Phase (s s' : State) (y : AccountName → ℚ) : Prop where
  drifted : Drifted s s' 0 y
  voters : VotersOk s'
  weights : WeightsOk s'

/-- The old vote is taken back from the proxy, or listed as taken back from the
producers. -/
theorem undoVote_phase {s : State} {name : AccountName} {voter : VoterInfo}
    {r : State × ProducerDeltas} (hg : ∀ t, 0 ≤ env.voteFactor t) (hs : VoteInvariant s)
    (hvoter : s.voters.find name = some voter) (h : undoVote env ctx s voter = .ok r)
    (hskipped : r.1.skipped = 0) :
    Phase s r.1 (fun q => -voter.handedTo q) ∧ (∀ p, r.2.delta p = -voter.votesFor p) ∧
      ∀ p, (r.2.find p).isSome → p ∈ voter.producers := by
  have hlast := hs.weights.last name voter hvoter
  have hnone : Drifted s s 0 0 := .of_eq rfl rfl rfl
  unfold undoVote at h
  split at h
  · split at h
    · rename_i hne
      simp only [Rollback.bind_eq_ok, getRow_eq_ok, Rollback.pure_eq_ok] at h
      obtain ⟨oldProxy, hold, m, hm, rfl⟩ := h
      have hhanded := hs.weights.handedTo_le hvoter (hs.drift.2 voter.proxy).ge
      rw [VoterInfo.handedTo, if_pos ⟨hne, rfl⟩, State.proxied, hold, Option.elim_some] at hhanded
      rw [sub_eq_add_neg] at hm
      obtain ⟨hdrift, hvoters, hweights⟩ := handed_passed hg hs.graph hs.voters hs.weights
        hold (by linarith) (fun b _ => (hs.drift.2 b).ge) hm hskipped
      refine ⟨⟨hdrift.congr (fun _ => rfl) fun q => ?_, hvoters, hweights⟩, fun p => ?_,
        fun p hp => by cases hp⟩
      · by_cases hq : q = voter.proxy
        · simp [VoterInfo.handedTo, hne, hq]
        · simp [VoterInfo.handedTo, hq, Ne.symm hq]
      · simp [VoterInfo.votesFor, hne, ProducerDeltas.delta]
    · rename_i hzero
      have hzero := not_not.mp hzero
      cases h
      refine ⟨⟨hnone.congr (fun _ => rfl) fun q => ?_, hs.voters, hs.weights⟩, fun p => ?_,
        fun p hp => ?_⟩
      · simp [VoterInfo.handedTo, hzero]
      · rw [ProducerDeltas.delta_foldl (hs.voters.nodup name voter hvoter)]
        by_cases hp : p ∈ voter.producers <;>
          simp [VoterInfo.votesFor, hzero, hp, ProducerDeltas.delta]
      · exact (ProducerDeltas.isSome_foldl.mp hp).resolve_right fun hp => by cases hp
  · rename_i hpos
    have hzero : voter.lastVoteWeight = 0 := le_antisymm (not_lt.mp hpos) hlast
    cases h
    refine ⟨⟨hnone.congr (fun _ => rfl) fun q => ?_, hs.voters, hs.weights⟩, fun p => ?_,
      fun p hp => by cases hp⟩
    · simp [VoterInfo.handedTo, hzero]
    · simp [VoterInfo.votesFor, hzero, ProducerDeltas.delta]

/-- The new vote `v` is handed to the proxy, or listed for the producers. -/
theorem castVote_phase {s : State} {d : ProducerDeltas} {v : VoterInfo} {voting : Bool}
    {r : State × ProducerDeltas} (hg : ∀ t, 0 ≤ env.voteFactor t)
    (hs : ProxyGraph s) (hvoters : VotersOk s) (hweights : WeightsOk s)
    (hlast : 0 ≤ v.lastVoteWeight) (hnodup : v.producers.Nodup)
    (halong : v.proxy ≠ 0 →
      ∀ b, Relation.TransGen (Edge s.proxyOf) v.proxy b → 0 ≤ s.proxyDrift b)
    (h : castVote env ctx s d v.proxy v.producers v.lastVoteWeight voting = .ok r)
    (hskipped : r.1.skipped = 0) :
    Phase s r.1 v.handedTo ∧ (∀ p, r.2.delta p = d.delta p + v.votesFor p) ∧
      (∀ p x, r.2.find p = some x → x.2 = true ∨ (d.find p).isSome) ∧
      (v.proxy = 0 → ∀ p ∈ v.producers, (r.2.find p).isSome) := by
  unfold castVote at h
  split at h
  · rename_i hne
    simp only [Rollback.bind_eq_ok, getRow_eq_ok, eosioAssert_eq_ok, exists_const,
      Rollback.pure_eq_ok] at h
    obtain ⟨newProxy, hnew, -, m, hm, rfl⟩ := h
    obtain ⟨hdrift, hvoters, hweights⟩ := handed_passed hg hs hvoters hweights hnew
      (add_nonneg (hweights.proxied _ _ hnew) hlast) (halong hne) hm hskipped
    refine ⟨⟨hdrift.congr (fun _ => rfl) fun q => ?_, hvoters, hweights⟩, fun p => ?_,
      fun p x hx => .inr (by rw [hx]; rfl), fun hzero => absurd hzero hne⟩
    · by_cases hq : q = v.proxy
      · simp [VoterInfo.handedTo, hne, hq]
      · simp [VoterInfo.handedTo, hq, Ne.symm hq]
    · simp [VoterInfo.votesFor, hne]
  · rename_i hzero
    have hzero := not_not.mp hzero
    cases h
    have hnone : Drifted s s 0 0 := .of_eq rfl rfl rfl
    refine ⟨⟨hnone.congr (fun _ => rfl) fun q => ?_, hvoters, hweights⟩, fun p => ?_,
      fun p x hx => ?_, fun _ p hp => ProducerDeltas.isSome_foldl.mpr (.inl hp)⟩
    · simp [VoterInfo.handedTo, hzero]
    · rw [ProducerDeltas.delta_foldl hnodup]
      simp [VoterInfo.votesFor, hzero]
    · rcases ProducerDeltas.find_foldl hx with hnew | hold
      · exact .inl hnew
      · rw [hold]
        exact .inr rfl

/-- A vote with a proxy lists no producers, one without lists distinct ones. -/
theorem validateVote_producers {name proxy : AccountName} {producers : List AccountName}
    (h : validateVote name proxy producers = .ok ()) :
    (proxy ≠ 0 → producers = []) ∧ producers.Nodup := by
  unfold validateVote at h
  split at h
  · simp only [Rollback.bind_eq_ok, eosioAssert_eq_ok, exists_const] at h
    have hnil := List.length_eq_zero_iff.mp h.1
    exact ⟨fun _ => hnil, hnil ▸ List.nodup_nil⟩
  · rename_i hzero
    simp only [Rollback.bind_eq_ok, eosioAssert_eq_ok, exists_const] at h
    exact ⟨fun hne => absurd hne hzero, h.2.pairwise.imp fun hlt => hlt.ne⟩

theorem VoteInvariant.of_eq {s s' : State} (hs : VoteInvariant s) (hv : s'.voters = s.voters)
    (hp : s'.producers = s.producers)
    (hw : s'.global.totalProducerVoteWeight = s.global.totalProducerVoteWeight) :
    VoteInvariant s' where
  graph := hs.graph.of_sameBase (.of_voters_eq hv)
  voters := ⟨hv ▸ hs.voters.staked, hv ▸ hs.voters.nodup, hv ▸ hp ▸ hs.voters.registered⟩
  weights := hs.weights.of_voters_eq hv
  agree := (Drifted.of_eq hv hp hw).votesAgree hs.agree (fun _ => rfl) fun _ => rfl

theorem VoteInvariant.activateStake {s : State} {name : AccountName} {voter : VoterInfo}
    (hs : VoteInvariant s) : VoteInvariant (activateStake ctx s name voter) := by
  unfold System.activateStake
  split
  · exact hs.of_eq rfl rfl rfl
  · exact hs

/-- A vote keeps the invariant, unless a change was skipped. -/
theorem VoteInvariant.updateVotes {s s' : State} {name proxy : AccountName}
    {producers : List AccountName} {voting : Bool} (hg : ∀ t, 0 ≤ env.voteFactor t)
    (hs : VoteInvariant s)
    (hkeep : ¬ voting → ∀ v, s.voters.find name = some v → v.proxy = proxy)
    (h : updateVotes env ctx s name proxy producers voting = .ok s')
    (hskipped : s'.skipped = 0) : VoteInvariant s' := by
  have hgraph := hs.graph.updateVotes hkeep h
  obtain ⟨voter, u, d, m, hvalid, hvoter, hu, hd, hm, rfl, hgraphu, hself, hsame, hback⟩ :=
    hs.graph.updateVotes_phases hkeep h
  obtain ⟨hnil, hnodup⟩ := validateVote_producers hvalid
  have hweight : 0 ≤ voter.weight env ctx := weight_nonneg hg hs.voters hs.weights hvoter
  have hs₀ : VoteInvariant (System.activateStake ctx s name voter) := hs.activateStake
  have hvoter₀ : (System.activateStake ctx s name voter).voters.find name = some voter := by
    rw [activateStake_voters, hvoter]
  have happlied : Grows d.1 m := Rollback.foldlM_induction (I := Grows d.1)
    (fun _ _ _ _ hI hb => hI.trans (Grows.writes.applyDelta hb)) (.refl _) hm
  have hd₀ : d.1.skipped = 0 := happlied.skipped_eq_zero hskipped
  -- the old vote is taken back
  obtain ⟨hundo, hdelta, hkeys⟩ :=
    undoVote_phase hg hs₀ hvoter₀ hu ((Grows.writes.handsOn (castVote_handsOn hd)).skipped_eq_zero hd₀)
  -- the new vote is cast
  obtain ⟨hcast, hdelta', hentries, hlisted⟩ := castVote_phase
    (v := { voter with lastVoteWeight := voter.weight env ctx, producers, proxy }) hg hgraphu
    hundo.voters hundo.weights hweight hnodup
    (fun hne b hb => by
      rw [hundo.drifted.proxied, hs₀.drift.2, VoterInfo.handedTo,
        if_neg fun he => hback hne b hb he.2, neg_zero, add_zero]) hd hd₀
  -- no producer loses more than it has
  have hlow : ∀ p, 0 ≤ d.1.totalVotes p + d.2.delta p := fun p => by
    have hdrift : d.1.votesDrift p = 0 := by
      rw [hcast.drifted.votes, hundo.drifted.votes, hs₀.drift.1]
      simp
    have hle := hcast.weights.votesFor_le hself hdrift.ge
    have hnew : 0 ≤ { voter with
        lastVoteWeight := voter.weight env ctx, producers, proxy }.votesFor p := by
      unfold VoterInfo.votesFor
      split
      · exact hweight
      · exact le_refl _
    rw [hdelta', hdelta]
    linarith
  obtain ⟨happly, hfound⟩ := applyDeltas_drifted d.2.sorted
    (fun pd hpd => by
      have hle := hlow pd.1
      rwa [ProducerDeltas.delta, OrderedTable.find_eq_some.mpr hpd, Option.elim_some] at hle)
    (fun pd hpd hold => by
      rcases hentries pd.1 pd.2 (OrderedTable.find_eq_some.mpr hpd) with hnew | hsome
      · rw [hold] at hnew
        cases hnew
      · exact hcast.voters.registered name voter hself pd.1 (hkeys pd.1 hsome)) hm
  have hself' : m.voters.find name = some voter := hsame ▸ hself
  have hvoters : VotersOk m := hcast.voters.of_sameBase (.of_voters_eq hsame) happlied
  have hdrift := ((hundo.drifted.trans hcast.drifted).trans happly).trans
    (drifted_modify (f := fun av =>
      { av with lastVoteWeight := voter.weight env ctx, producers, proxy }) hself' rfl)
  refine ⟨hgraph, ?_, ?_, hdrift.votesAgree hs₀.agree (fun p => ?_) fun q => ?_⟩
  · rw [OrderedTable.modify_eq_set hself']
    refine hvoters.set (hvoters.staked name voter hself') hnodup fun p hp => ?_
    by_cases hzero : proxy = 0
    · obtain ⟨x, hx⟩ := Option.isSome_iff_exists.mp (hlisted hzero p hp)
      exact happlied.registered p (hfound (p, x) (OrderedTable.find_eq_some.mp hx))
    · rw [hnil hzero] at hp
      cases hp
  · rw [OrderedTable.modify_eq_set hself']
    exact (hcast.weights.of_voters_eq hsame).set hweight
      (hcast.weights.proxied name voter hself)
  · rw [ProducerDeltas.sum_rows, hdelta', hdelta]
    simp only [Pi.zero_apply]
    ring
  · simp only [Pi.zero_apply]
    ring

theorem VoteInvariant.voteproducer {s s' : State} {name proxy : AccountName}
    {producers : List AccountName} (hg : ∀ t, 0 ≤ env.voteFactor t) (hs : VoteInvariant s)
    (h : voteproducer env ctx s name proxy producers = .ok s') (hskipped : s'.skipped = 0) :
    VoteInvariant s' := by
  exact hs.updateVotes hg (fun hno => absurd rfl hno) (updateVotes_of_voteproducer h) hskipped

/-! ### Registering and staking -/

/-- A voter's row is written with the vote and the proxied weight it had. -/
theorem VoteInvariant.setVoter {s : State} {k : AccountName} {v : VoterInfo}
    (hs : VoteInvariant s) (hgraph : ProxyGraph { s with voters := s.voters.set k v })
    (hstaked : 0 ≤ v.staked.toInt) (hproducers : v.producers =
      (s.voters.find k).elim [] VoterInfo.producers)
    (hproxy : v.proxy = (s.voters.find k).elim 0 VoterInfo.proxy)
    (hlast : v.lastVoteWeight = (s.voters.find k).elim 0 VoterInfo.lastVoteWeight)
    (hproxied : v.proxiedVoteWeight = s.proxied k) :
    VoteInvariant { s with voters := s.voters.set k v } := by
  rw [State.proxied] at hproxied
  have hdrift := drifted_setVoter (s := s) (k := k) (v := v) (d := 0)
    (by rw [hproxied, add_zero]; rfl)
  cases hk : s.voters.find k with
  | none =>
      simp only [hk, Option.elim_none] at hproducers hproxy hlast hproxied hdrift
      refine ⟨hgraph, hs.voters.set hstaked (by rw [hproducers]; exact List.nodup_nil)
        (by rw [hproducers]; exact fun _ hp => by cases hp),
        hs.weights.set hlast.ge hproxied.ge, hdrift.votesAgree hs.agree (fun p => ?_) fun q => ?_⟩
      · simp [VoterInfo.votesFor, hproducers]
      · simp [VoterInfo.handedTo, hproxy]
  | some u =>
      simp only [hk, Option.elim_some] at hproducers hproxy hlast hproxied hdrift
      refine ⟨hgraph, hs.voters.set hstaked (hproducers ▸ hs.voters.nodup k u hk)
        (hproducers ▸ hs.voters.registered k u hk),
        hs.weights.set (hlast ▸ hs.weights.last k u hk) (hproxied ▸ hs.weights.proxied k u hk),
        hdrift.votesAgree hs.agree (fun p => ?_) fun q => ?_⟩
      · simp [VoterInfo.votesFor, hproducers, hproxy, hlast]
      · simp [VoterInfo.handedTo, hproxy, hlast]

theorem VoteInvariant.propagate {s s' : State} {name : AccountName}
    (hg : ∀ t, 0 ≤ env.voteFactor t) (hs : VoteInvariant s)
    (h : propagateWeightChange env ctx s name = .ok s') (hskipped : s'.skipped = 0) :
    VoteInvariant s' := by
  have hpassed := propagateWithin_passed hg
    ⟨hs.graph, hs.voters, hs.weights, fun b _ => (hs.drift.2 b).ge⟩ h hskipped
  exact ⟨hs.graph.of_sameBase (propagateWeightChange_sameBase h), hpassed.voters, hpassed.weights,
    hpassed.drifted.votesAgree hs.agree (fun _ => rfl) fun _ => rfl⟩

theorem VoteInvariant.regproxy {s s' : State} {proxy : AccountName} {isproxy : Bool}
    (hg : ∀ t, 0 ≤ env.voteFactor t) (hs : VoteInvariant s)
    (h : regproxy env ctx s proxy isproxy = .ok s') (hskipped : s'.skipped = 0) :
    VoteInvariant s' := by
  have hgraph := hs.graph.regproxy h
  obtain ⟨voter, hvoter, -, hb, h⟩ | ⟨hnone, rfl⟩ := regproxy_cases h
  · refine VoteInvariant.propagate hg (hs.setVoter (hs.graph.setIsProxy hvoter hb)
      (hs.voters.staked proxy voter hvoter) ?_ ?_ ?_ ?_) h hskipped
    · rw [hvoter]
      rfl
    · rw [hvoter]
      rfl
    · rw [hvoter]
      rfl
    · rw [State.proxied, hvoter]
      rfl
  · refine hs.setVoter hgraph (le_refl _) ?_ ?_ ?_ ?_
    · rw [hnone]
      rfl
    · rw [hnone]
      rfl
    · rw [hnone]
      rfl
    · rw [State.proxied, hnone]
      rfl

theorem VoteInvariant.restake {s : State} {name : AccountName} {total : Int64}
    (hs : VoteInvariant s) (hstaked : 0 ≤ (restakedVoter s name total).staked.toInt) :
    VoteInvariant { s with voters := s.voters.set name (restakedVoter s name total) } := by
  refine hs.setVoter hs.graph.restake hstaked ?_ ?_ ?_ ?_
  · unfold restakedVoter
    cases s.voters.find name <;> rfl
  · unfold restakedVoter
    cases s.voters.find name <;> rfl
  · unfold restakedVoter
    cases s.voters.find name <;> rfl
  · unfold restakedVoter State.proxied
    cases s.voters.find name <;> rfl

theorem VoteInvariant.changeVoterStake {s s' : State} {from_ : AccountName} {n c : Asset}
    (hg : ∀ t, 0 ≤ env.voteFactor t) (hs : VoteInvariant s)
    (h : changeVoterStake env ctx s from_ n c = .ok s') (hskipped : s'.skipped = 0) :
    VoteInvariant s' := by
  obtain ⟨total, -, hstaked, h⟩ := changeVoterStake_cases h
  have hrestaked := hs.restake hstaked
  unfold recastVote at h
  split at h
  · refine hrestaked.updateVotes hg (fun _ v hv => ?_) h hskipped
    rw [OrderedTable.find_set_self] at hv
    cases hv
    rfl
  · cases h
    exact hrestaked

/-! ### Every event -/

theorem VoteInvariant.of_sameVotes {s s' : State} (hs : VoteInvariant s) (h : SameVotes s s') :
    VoteInvariant s' where
  graph := hs.graph.of_sameVotes h
  voters := ⟨h.voters ▸ hs.voters.staked, h.voters ▸ hs.voters.nodup,
    fun a v hv p hp => h.registered p (hs.voters.registered a v (h.voters ▸ hv) p hp)⟩
  weights := hs.weights.of_voters_eq h.voters
  agree := by
    refine ⟨fun p => ?_, fun q => ?_, ?_⟩
    · rw [State.votesFor, h.voters]
      exact (h.votes p).trans (hs.agree.votes p)
    · rw [State.proxied, State.handedTo, h.voters]
      exact hs.agree.proxied q
    · rw [h.totalProducerVoteWeight, State.votesSum, h.votesSum]
      exact hs.agree.total

theorem updateVotes_skipped_le {s s' : State} {name proxy : AccountName}
    {producers : List AccountName} {voting : Bool}
    (h : System.updateVotes env ctx s name proxy producers voting = .ok s') :
    s.skipped ≤ s'.skipped := by
  obtain ⟨voter, -, hgrows⟩ := Grows.writes.updateVotes h
  have hactivated : (System.activateStake ctx s name voter).skipped = s.skipped := by
    unfold System.activateStake
    split <;> rfl
  exact hactivated ▸ hgrows.skipped

theorem VoteEffect.skipped_le {s s' : State} {call : Call} (h : VoteEffect env ctx call s s') :
    s.skipped ≤ s'.skipped := by
  cases h with
  | restake _ _ _ he =>
      obtain ⟨total, -, -, he⟩ := changeVoterStake_cases he
      unfold recastVote at he
      split at he
      · have hle := updateVotes_skipped_le he
        exact hle
      · cases he
        exact le_refl _
  | vote _ he =>
      simp only [voteproducer, Rollback.bind_eq_ok, requireAuth_eq_ok, exists_const] at he
      exact updateVotes_skipped_le he.2
  | register he =>
      simp only [regproxy, Rollback.bind_eq_ok, requireAuth_eq_ok, exists_const] at he
      obtain ⟨-, he⟩ := he
      split at he
      · simp only [Rollback.bind_eq_ok, eosioAssert_eq_ok, exists_const] at he
        exact (Grows.writes.propagateWeightChange he.2.2).skipped
      · cases he
        exact le_refl _
  | same he => exact he.skipped.ge

theorem VoteInvariant.exec {s s' : Chain} {e : Event} (hg : ∀ t, 0 ≤ env.voteFactor t)
    (hrows : StakeRows s.system) (hs : s.system.skipped = 0 → VoteInvariant s.system)
    (h : exec env s e = .ok s') (hskipped : s'.system.skipped = 0) :
    VoteInvariant s'.system := by
  obtain ⟨sys, hsame, heffect⟩ := exec_votes hrows h
  have hle := heffect.skipped_le
  have hsys : VoteInvariant sys := (hs (by have := hsame.skipped; omega)).of_sameVotes hsame
  cases heffect with
  | restake _ _ _ he => exact hsys.changeVoterStake hg he hskipped
  | vote _ he => exact hsys.voteproducer hg he hskipped
  | register he => exact hsys.regproxy hg he hskipped
  | same he => exact hsys.of_sameVotes he

theorem voteInvariant_init : VoteInvariant {} where
  graph := proxyGraph_init
  voters := ⟨fun _ _ h => (by cases h), fun _ _ h => (by cases h), fun _ _ h => (by cases h)⟩
  weights := ⟨fun _ _ h => (by cases h), fun _ _ h => (by cases h)⟩
  agree := ⟨fun _ => rfl, fun _ => rfl, rfl⟩

theorem run_voteInvariant (hg : ∀ t, 0 ≤ env.voteFactor t) (es : List Event)
    (h : (run env {} es).system.skipped = 0) : VoteInvariant (run env {} es).system := by
  have hinv : StakeRows (run env {} es).system ∧
      ((run env {} es).system.skipped = 0 → VoteInvariant (run env {} es).system) :=
    Rollback.run_induction
      (I := fun s : Chain => StakeRows s.system ∧ (s.system.skipped = 0 → VoteInvariant s.system))
      (fun _ _ _ hs h => ⟨hs.1.exec h, VoteInvariant.exec hg hs.1 hs.2 h⟩) es
      ⟨stakeRows_init, fun _ => voteInvariant_init⟩
  exact hinv.2 h

/-- In every run in which no change of weight was too small to be passed on,
each producer has the votes of those who vote for it, each proxy the weight of
those who chose it, and the total is the sum over the producers. -/
theorem vote_accounting (env : Env) (hg : ∀ t, 1 ≤ env.voteFactor t) (es : List Event)
    (h : (run env {} es).system.skipped = 0) : VotesAgree (run env {} es).system :=
  (run_voteInvariant (fun t => zero_le_one.trans (hg t)) es h).agree

/-- Bob has staked, is registered as a proxy, and votes for the only producer. -/
def bobProxy : List Event :=
  genesis [stakeAccount, N "alice", N "bob", N "prod"] (N "alice") ++
    [⟨[N "prod"], 0, .system (.regproducer (N "prod") ⟨0, List.replicate 33 1⟩ "" 0)⟩,
      ⟨[N "alice"], 0, .system (.delegatebw (N "alice") (N "bob") (core 10) (core 0) true)⟩,
      ⟨[N "bob"], 0, .system (.regproxy (N "bob") true)⟩,
      ⟨[N "bob"], 0, .system (.voteproducer (N "bob") 0 [N "prod"])⟩]

/-- Alice chooses Bob as her proxy and stakes more. -/
theorem vote_accounting_proxy :
    let s := run .flat {} (bobProxy ++
      [⟨[N "alice"], 0, .system (.delegatebw (N "alice") (N "alice") (core 5) (core 0) false)⟩,
        ⟨[N "alice"], 0, .system (.voteproducer (N "alice") (N "bob") [])⟩,
        ⟨[N "alice"], 0, .system (.delegatebw (N "alice") (N "bob") (core 20) (core 0) false)⟩])
    VotesAgree s.system ∧ s.system.totalVotes (N "prod") = 35 ∧ s.system.proxied (N "bob") = 25 :=
  ⟨vote_accounting .flat (fun _ => le_refl (1 : ℚ)) _ (by decide +kernel), by decide +kernel,
    by decide +kernel⟩

/-- Alice has staked a single unit: Bob's weight grows by too little to be
passed on to the producer. -/
theorem small_change_not_passed_on :
    let s := run .flat {} (bobProxy ++
      [⟨[N "alice"], 0, .system (.delegatebw (N "alice") (N "alice") (core 1) (core 0) false)⟩,
        ⟨[N "alice"], 0, .system (.voteproducer (N "alice") (N "bob") [])⟩])
    s.system.totalVotes (N "prod") = 10 ∧ s.system.votesFor (N "prod") = 11 ∧
      ¬ VotesAgree s.system := by
  refine ⟨by decide +kernel, by decide +kernel, fun h => ?_⟩
  have hvotes := h.votes (N "prod")
  revert hvotes
  decide +kernel

end Xidata.System
