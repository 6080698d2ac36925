import Mathlib.Data.List.MinMax
import Xidata.System.ProxyGraph
import Xidata.System.StakeViews

/-!
Activation of stake.  The contract takes a voter whose last vote has no weight
for one who has never voted, and adds its stake to the activated stake.  This
is right as long as a voter with a stake has a weight once it has voted; a
voter who takes back its whole stake loses its weight with it.
-/

namespace Xidata.System

open Eosiolib SuccessorGraph

variable {env : Env} {ctx : Ctx} {s s' : State} {name a : AccountName}

/-! ### Voters whose weight shows that they have voted -/

/-- If the voter has a stake, its last vote had a weight; the one exception is
a proxy that was handed less than nothing. -/
def VoterInfo.Weighed (v : VoterInfo) : Prop :=
  0 < v.staked.toInt → 0 < v.lastVoteWeight ∨ v.isProxy ∧ v.proxiedVoteWeight < 0

/-- A voter that is written with its weight. -/
theorem weighed_of_weight {v v' : VoterInfo} (hg : ∀ t, 0 < env.voteFactor t)
    (hlast : v'.lastVoteWeight = v.weight env ctx)
    (hsame : v'.staked = v.staked ∧ v'.isProxy = v.isProxy ∧
      v'.proxiedVoteWeight = v.proxiedVoteWeight) : v'.Weighed := by
  obtain ⟨hs, hp, hw⟩ := hsame
  intro hstaked
  have hvote : 0 < stake2vote env ctx v.staked :=
    mul_pos (by exact_mod_cast hs ▸ hstaked) (hg _)
  rw [hlast, hp, hw, VoterInfo.weight]
  by_cases hproxy : v.isProxy
  · rw [if_pos hproxy]
    rcases lt_or_ge v.proxiedVoteWeight 0 with hneg | hnonneg
    · exact .inr ⟨hproxy, hneg⟩
    · exact .inl (add_pos_of_pos_of_nonneg hvote hnonneg)
  · rw [if_neg hproxy, add_zero]
    exact .inl hvote

/-- The account is a voter whose weight shows that it has voted. -/
def State.HasWeighed (s : State) (a : AccountName) : Prop :=
  ∃ v, s.voters.find a = some v ∧ v.Weighed

theorem State.HasWeighed.of_voters_eq (ha : s.HasWeighed a) (h : s'.voters = s.voters) :
    s'.HasWeighed a := by
  unfold State.HasWeighed
  rw [h]
  exact ha

theorem State.HasWeighed.set {k : AccountName} {v : VoterInfo} (ha : s.HasWeighed a)
    (hk : a ≠ k) : ({ s with voters := s.voters.set k v } : State).HasWeighed a := by
  obtain ⟨v', hv', hweighed⟩ := ha
  exact ⟨v', (OrderedTable.find_set_of_ne _ hk _).trans hv', hweighed⟩

/-- Passing a change on starts by writing the row of `name`, and ends by giving
it its weight. -/
theorem propagateWithin_weighed {depth : ℕ} (hg : ∀ t, 0 < env.voteFactor t)
    (hs : ProxyGraph s) (h : propagateWithin env ctx depth s name = .ok s')
    (ha : a ≠ name → s.HasWeighed a) : s'.HasWeighed a := by
  induction depth generalizing s s' name with
  | zero => cases h
  | succ depth ih =>
      obtain ⟨voter, m, hvoter, hself, rfl, hm⟩ := hs.propagateWithin_cases h
      by_cases hname : a = name
      · subst hname
        have hfind := OrderedTable.find_modify m.voters a a
          fun v => { v with lastVoteWeight := voter.weight env ctx }
        rw [if_pos rfl, hself] at hfind
        exact ⟨_, hfind, weighed_of_weight hg rfl ⟨rfl, rfl, rfl⟩⟩
      · have hm : m.HasWeighed a := by
          rcases hm with ⟨-, -, proxy, hfind, hrec⟩ | ⟨-, hsame, -⟩ | rfl
          · exact ih (hs.of_sameBase (SameBase.setProxied hfind _)) hrec (ha hname).set
          · exact (ha hname).of_voters_eq hsame
          · exact ha hname
        obtain ⟨v, hv, hweighed⟩ := hm
        refine ⟨v, ?_, hweighed⟩
        rw [OrderedTable.find_modify, if_neg hname, hv]

theorem HandsOn.weighed {k : AccountName} (hg : ∀ t, 0 < env.voteFactor t) (hs : ProxyGraph s)
    (h : HandsOn env ctx s s' k) (ha : s.HasWeighed a) : s'.HasWeighed a := by
  cases h with
  | same hm => exact hm ▸ ha
  | proxy p x hne hp hm =>
      exact propagateWithin_weighed hg (hs.of_sameBase (SameBase.setProxied hp x)) hm ha.set

/-- A vote writes the weight of the one who votes. -/
theorem updateVotes_weighed {proxy : AccountName} {producers : List AccountName} {voting : Bool}
    (hg : ∀ t, 0 < env.voteFactor t) (hs : ProxyGraph s)
    (hkeep : ¬ voting → ∀ v, s.voters.find name = some v → v.proxy = proxy)
    (h : updateVotes env ctx s name proxy producers voting = .ok s')
    (ha : a ≠ name → s.HasWeighed a) : s'.HasWeighed a := by
  obtain ⟨voter, u, d, m, -, hvoter, hu, hd, -, rfl, hsu, hself, hvoters, -⟩ :=
    hs.updateVotes_phases hkeep h
  by_cases hname : a = name
  · subst hname
    have hfind := OrderedTable.find_modify m.voters a a fun av =>
      { av with lastVoteWeight := voter.weight env ctx, producers, proxy }
    have hself : m.voters.find a = some voter := hvoters ▸ hself
    rw [if_pos rfl, hself] at hfind
    exact ⟨_, hfind, weighed_of_weight hg rfl ⟨rfl, rfl, rfl⟩⟩
  · have hactivated := activateStake_voters (c := ctx) s name voter
    have hu := (undoVote_handsOn hu).weighed hg (hs.of_sameBase (.of_voters_eq hactivated))
      ((ha hname).of_voters_eq hactivated)
    obtain ⟨v, hv, hweighed⟩ := (castVote_handsOn hd).weighed hg hsu hu
    refine ⟨v, ?_, hweighed⟩
    rw [OrderedTable.find_modify, if_neg hname, hvoters, hv]

/-! ### What has been activated -/

/-- What a list of activations adds up to in the counter, which may wrap
around. -/
def activated (activations : List (AccountName × Int64)) : Int64 :=
  activations.foldr (fun p total => total + p.2) 0

theorem toInt_add_le {x y : Int64} (hy : 0 ≤ y.toInt) :
    (x + y).toInt ≤ x.toInt + y.toInt := by
  have hx := Int64.le_toInt x
  have hlt := Int64.toInt_lt x
  have hlt' := Int64.toInt_lt y
  rw [Int64.toInt_add]
  rcases lt_or_ge (x.toInt + y.toInt) (2 ^ 63) with hsmall | hlarge
  · rw [Asset.bmod_eq_self (by omega) hsmall]
  · rw [← Int.sub_bmod_right, Asset.bmod_eq_self (by omega) (by omega)]
    omega

/-- The accounts whose stake was activated, once for each addition that is not
zero. -/
def State.activatedAccounts (s : State) : List AccountName :=
  (s.activations.filter fun p => p.2 ≠ 0).map Prod.fst

/-- Whoever has activated a stake has a weight to show for it, has done so
once, and with a stake of at most `H`. -/
structure Activated (H : AccountName → ℤ) (s : State) : Prop where
  weighed : ∀ a ∈ s.activatedAccounts, s.HasWeighed a
  once : s.activatedAccounts.Nodup
  bounded : ∀ p ∈ s.activations, 0 ≤ p.2.toInt ∧ p.2.toInt ≤ H p.1
  total : s.global.totalActivatedStake = activated s.activations

variable {H : AccountName → ℤ}

theorem activated_le {l : List (AccountName × Int64)}
    (h : ∀ p ∈ l, 0 ≤ p.2.toInt ∧ p.2.toInt ≤ H p.1) :
    (activated l).toInt ≤ (((l.filter fun p => p.2 ≠ 0).map Prod.fst).map H).sum := by
  induction l with
  | nil => exact le_refl 0
  | cons p l ih =>
      have ih := ih fun q hq => h q (List.mem_cons_of_mem p hq)
      obtain ⟨hnonneg, hbound⟩ := h p (List.mem_cons_self ..)
      have hadd : (activated (p :: l)).toInt ≤ (activated l).toInt + p.2.toInt :=
        toInt_add_le hnonneg
      rw [List.filter_cons]
      split
      · rw [List.map_cons, List.map_cons, List.sum_cons]
        omega
      · rename_i hzero
        have hzero : p.2 = 0 := by simpa using hzero
        rw [hzero] at hadd
        have hsame : (0 : Int64).toInt = 0 := rfl
        omega

theorem activated_init (H : AccountName → ℤ) : Activated H {} :=
  ⟨fun _ h => (by cases h), List.nodup_nil, fun _ h => (by cases h), rfl⟩

/-- Nothing is activated, and the weights stay. -/
theorem Activated.of_weighed (hs : Activated H s) (hactivations : s'.activations = s.activations)
    (htotal : s'.global.totalActivatedStake = s.global.totalActivatedStake)
    (hweighed : ∀ a ∈ s.activatedAccounts, s.HasWeighed a → s'.HasWeighed a) :
    Activated H s' := by
  have haccounts : s'.activatedAccounts = s.activatedAccounts := by
    rw [State.activatedAccounts, hactivations]
    rfl
  refine ⟨fun a ha => ?_, ?_, ?_, ?_⟩
  · rw [haccounts] at ha
    exact hweighed a ha (hs.weighed a ha)
  · rw [haccounts]
    exact hs.once
  · rw [hactivations]
    exact hs.bounded
  · rw [htotal, hactivations, hs.total]

/-- A stake is activated for an account that has activated none. -/
theorem Activated.cons {staked : Int64} (hs : Activated H s)
    (hactivations : s'.activations = (name, staked) :: s.activations)
    (htotal : s'.global.totalActivatedStake = s.global.totalActivatedStake + staked)
    (hweighed : ∀ a, (a ≠ name → s.HasWeighed a) → s'.HasWeighed a)
    (hname : 0 < staked.toInt → name ∉ s.activatedAccounts)
    (hstaked : 0 ≤ staked.toInt) (hbound : staked.toInt ≤ H name) : Activated H s' := by
  have hbounded : ∀ p ∈ s'.activations, 0 ≤ p.2.toInt ∧ p.2.toInt ≤ H p.1 := fun p hp => by
    rw [hactivations] at hp
    rcases List.mem_cons.mp hp with rfl | hp
    · exact ⟨hstaked, hbound⟩
    · exact hs.bounded p hp
  have htotal : s'.global.totalActivatedStake = activated s'.activations := by
    rw [htotal, hactivations, hs.total]
    rfl
  rcases hstaked.eq_or_lt with hzero | hpos
  · have haccounts : s'.activatedAccounts = s.activatedAccounts := by
      rw [State.activatedAccounts, hactivations, List.filter_cons_of_neg]
      · rfl
      · simpa using Int64.toInt_inj.mp hzero.symm
    refine ⟨fun a ha => ?_, ?_, hbounded, htotal⟩
    · rw [haccounts] at ha
      exact hweighed a fun _ => hs.weighed a ha
    · rw [haccounts]
      exact hs.once
  · have haccounts : s'.activatedAccounts = name :: s.activatedAccounts := by
      rw [State.activatedAccounts, hactivations, List.filter_cons_of_pos]
      · rfl
      · refine decide_eq_true fun he => ?_
        rw [show staked = 0 from he] at hpos
        exact absurd hpos (lt_irrefl 0)
    refine ⟨fun a ha => ?_, ?_, hbounded, htotal⟩
    · rw [haccounts, List.mem_cons] at ha
      exact hweighed a fun hne => hs.weighed a (ha.resolve_left hne)
    · rw [haccounts]
      exact List.nodup_cons.mpr ⟨hname hpos, hs.once⟩

/-! ### The actions -/

/-- The weight of a voter that was handed less than nothing is positive
nevertheless. -/
def VoterInfo.HandedOk (v : VoterInfo) : Prop :=
  v.isProxy → v.proxiedVoteWeight < 0 → 0 < v.lastVoteWeight

instance (v : VoterInfo) : Decidable v.HandedOk := by unfold VoterInfo.HandedOk; infer_instance

theorem VoterInfo.Weighed.lastVoteWeight_pos {v : VoterInfo} (hv : v.Weighed) (hok : v.HandedOk)
    (hpos : 0 < v.staked.toInt) : 0 < v.lastVoteWeight :=
  (hv hpos).elim id fun ⟨hproxy, hneg⟩ => hok hproxy hneg

theorem Activated.updateVotes {proxy : AccountName} {producers : List AccountName}
    {voting : Bool} {voter : VoterInfo} (hg : ∀ t, 0 < env.voteFactor t)
    (hs : Activated H s) (hgraph : ProxyGraph s) (hvoter : s.voters.find name = some voter)
    (hkeep : ¬ voting → voter.proxy = proxy) (hok : voter.HandedOk)
    (hstaked : 0 ≤ voter.staked.toInt) (hbound : voter.staked.toInt ≤ H name)
    (h : System.updateVotes env ctx s name proxy producers voting = .ok s') :
    Activated H s' := by
  have hweighed : ∀ a, (a ≠ name → s.HasWeighed a) → s'.HasWeighed a := fun a =>
    updateVotes_weighed hg hgraph (fun hno v hv => by
      cases hvoter.symm.trans hv
      exact hkeep hno) h
  obtain ⟨v, hv, hgrows⟩ := Grows.writes.updateVotes h
  cases hvoter.symm.trans hv
  unfold activateStake at hgrows
  split at hgrows
  · rename_i hlast
    refine hs.cons hgrows.activations hgrows.totalActivatedStake hweighed
      (fun hpos hmem => ?_) hstaked hbound
    obtain ⟨v, hv, hv'⟩ := hs.weighed name hmem
    cases hvoter.symm.trans hv
    exact hlast.not_gt (hv'.lastVoteWeight_pos hok hpos)
  · exact hs.of_weighed hgrows.activations hgrows.totalActivatedStake fun a _ ha =>
      hweighed a fun _ => ha

/-- A stake is changed; nobody who has activated its stake and has taken all of
it back stakes again without a weight. -/
theorem Activated.changeVoterStake {from_ : AccountName} {n c : Asset}
    (hg : ∀ t, 0 < env.voteFactor t) (hs : Activated H s) (hgraph : ProxyGraph s)
    (hstaked : ∀ a, 0 ≤ s.stakedOf a) (hbound : ∀ a, s'.stakedOf a ≤ H a)
    (hok : ∀ v, s.voters.find from_ = some v → v.HandedOk)
    (hback : ∀ v, s.voters.find from_ = some v → v.staked = 0 → v.lastVoteWeight ≤ 0 →
      from_ ∉ s.activatedAccounts)
    (h : changeVoterStake env ctx s from_ n c = .ok s') : Activated H s' := by
  obtain ⟨total, -, hnonneg, h⟩ := changeVoterStake_cases h
  have hbase := recastVote_sameBase (OrderedTable.find_set_self ..) h
  have hrestaked : Activated H { s with
      voters := s.voters.set from_ (restakedVoter s from_ total.amount) } := by
    refine hs.of_weighed rfl rfl fun a hmem ha => ?_
    by_cases hfrom : a = from_
    · subst hfrom
      obtain ⟨v, hv, hweighed⟩ := ha
      refine ⟨_, OrderedTable.find_set_self .., fun _ => .inl ?_⟩
      rw [restakedVoter, hv]
      have hold := hstaked a
      rw [State.stakedOf, hv] at hold
      rcases hold.eq_or_lt with hzero | hpos
      · have hzero : v.staked = 0 := Int64.toInt_inj.mp hzero.symm
        exact lt_of_not_ge fun hlast => hback v hv hzero hlast hmem
      · exact hweighed.lastVoteWeight_pos (hok v hv) hpos
    · exact ha.set hfrom
  have hfind : ({ s with
      voters := s.voters.set from_ (restakedVoter s from_ total.amount) } : State).voters.find
        from_ = some (restakedVoter s from_ total.amount) := OrderedTable.find_set_self ..
  unfold recastVote at h
  split at h
  · refine hrestaked.updateVotes hg hgraph.restake hfind (fun _ => rfl) ?_ hnonneg ?_ h
    · unfold restakedVoter
      split
      · exact fun hproxy => by cases hproxy
      · rename_i v hv
        have hv := hok v hv
        exact hv
    · have hle := hbase.stakedOf from_ ▸ hbound from_
      rw [State.stakedOf, hfind] at hle
      exact hle
  · cases h
    exact hrestaked

theorem Activated.voteproducer {proxy : AccountName} {producers : List AccountName}
    (hg : ∀ t, 0 < env.voteFactor t) (hs : Activated H s) (hgraph : ProxyGraph s)
    (hstaked : ∀ a, 0 ≤ s.stakedOf a) (hbound : ∀ a, s'.stakedOf a ≤ H a)
    (hok : ∀ v, s.voters.find name = some v → v.HandedOk)
    (h : voteproducer env ctx s name proxy producers = .ok s') : Activated H s' := by
  have hle := voteproducer_stakedOf h name ▸ hbound name
  have hnonneg := hstaked name
  replace h := updateVotes_of_voteproducer h
  obtain ⟨voter, hvoter, -⟩ := Grows.writes.updateVotes h
  rw [State.stakedOf, hvoter] at hle hnonneg
  exact hs.updateVotes hg hgraph hvoter (fun hno => absurd rfl hno) (hok voter hvoter) hnonneg
    hle h

theorem Activated.regproxy {proxy : AccountName} {isproxy : Bool}
    (hg : ∀ t, 0 < env.voteFactor t) (hs : Activated H s) (hgraph : ProxyGraph s)
    (h : regproxy env ctx s proxy isproxy = .ok s') : Activated H s' := by
  obtain ⟨voter, hvoter, -, hb, h⟩ | ⟨hnone, rfl⟩ := regproxy_cases h
  · have hgrows := Grows.writes.propagateWeightChange h
    exact hs.of_weighed hgrows.activations hgrows.totalActivatedStake fun a _ ha =>
      propagateWithin_weighed hg (hgraph.setIsProxy hvoter hb) h ha.set
  · refine hs.of_weighed rfl rfl fun a _ ha => ha.set fun he => ?_
    obtain ⟨v, hv, -⟩ := ha
    rw [he, hnone] at hv
    cases hv

theorem Activated.of_sameVotes (hs : Activated H s) (h : SameVotes s s') : Activated H s' :=
  hs.of_weighed h.activations h.totalActivatedStake fun _ _ ha => ha.of_voters_eq h.voters

/-! ### Runs -/

/-- The step condition.  The one whose vote is cast is not a proxy that was
handed less than nothing and has no weight, and the one whose stake is changed
has not activated a stake, taken back all of it, and been left without weight. -/
def ActivationStep (s : Chain) (e : Event) (_ : Chain) : Prop :=
  (∀ a ∈ e.call.voter, ∀ v ∈ s.system.voters.find a, v.HandedOk) ∧
    ∀ a ∈ e.call.staker, ∀ v ∈ s.system.voters.find a,
      v.staked = 0 → v.lastVoteWeight ≤ 0 → a ∉ s.system.activatedAccounts

instance (s : Chain) (e : Event) (s' : Chain) : Decidable (ActivationStep s e s') :=
  @instDecidableAnd _ _ (Option.decidableForallMem _) (Option.decidableForallMem _)

theorem Activated.exec {s s' : Chain} {e : Event} (hg : ∀ t, 0 < env.voteFactor t)
    (hs : Activated H s.system) (hgraph : ProxyGraph s.system) (hviews : ViewsAgree s.system)
    (h : exec env s e = .ok s') (hstep : ActivationStep s e s')
    (hbound : ∀ a, s'.system.stakedOf a ≤ H a) : Activated H s'.system := by
  obtain ⟨sys, hsame, heffect⟩ := exec_votes hviews.rows h
  obtain ⟨hok, hback⟩ := hstep
  have hsys := hs.of_sameVotes hsame
  have hgraph := hgraph.of_sameVotes hsame
  have hstaked : ∀ a, 0 ≤ sys.stakedOf a := fun a => by
    rw [hsame.stakedOf]
    exact hviews.staked_nonneg a
  have haccounts : sys.activatedAccounts = s.system.activatedAccounts := by
    rw [State.activatedAccounts, hsame.activations]
    rfl
  rw [← hsame.voters] at hok hback
  rw [← haccounts] at hback
  cases heffect with
  | restake _ _ hcall he =>
      exact hsys.changeVoterStake hg hgraph hstaked hbound
        (hok _ (Call.voter_of_staker hcall)) (hback _ hcall) he
  | vote hcall he => exact hsys.voteproducer hg hgraph hstaked hbound (hok _ hcall) he
  | register he => exact hsys.regproxy hg hgraph he
  | same he => exact hsys.of_sameVotes he

/-- The largest stake that `a` has held in the course of a run. -/
def peakStake (env : Env) (es : List Event) (a : AccountName) : ℤ :=
  ((Rollback.trace (System.exec env) {} es).map fun s => s.system.stakedOf a).foldr max 0

theorem stakedOf_le_peakStake {es : List Event} {s : Chain}
    (hs : s ∈ Rollback.trace (System.exec env) {} es) (a : AccountName) :
    s.system.stakedOf a ≤ peakStake env es a :=
  List.le_max_of_le' 0 (List.mem_map_of_mem hs) (le_refl _)

theorem peakStake_nonneg (es : List Event) (a : AccountName) : 0 ≤ peakStake env es a :=
  stakedOf_le_peakStake (Rollback.mem_trace_self ..) a

/-- After the run every account has activated its stake at most once, and the
activated stake is no more than what the voters held at their peaks. -/
structure ActivatedOnce (env : Env) (es : List Event) : Prop where
  once : (run env {} es).system.activatedAccounts.Nodup
  total : (run env {} es).system.global.totalActivatedStake.toInt ≤
    (run env {} es).system.voters.sum fun a _ => peakStake env es a

theorem run_activated (hg : ∀ t, 0 < env.voteFactor t) {es : List Event}
    (h : Rollback.Along (exec env) ActivationStep {} es) :
    Activated (peakStake env es) (run env {} es).system := by
  have hbound : Rollback.Along (exec env)
      (fun _ _ s' => ∀ a, s'.system.stakedOf a ≤ peakStake env es a) {} es :=
    Rollback.along_trace fun s hs a => stakedOf_le_peakStake hs a
  have hinv : ProxyGraph (run env {} es).system ∧ ViewsAgree (run env {} es).system ∧
      Activated (peakStake env es) (run env {} es).system :=
    Rollback.run_induction_along
      (I := fun s : Chain => ProxyGraph s.system ∧ ViewsAgree s.system ∧
        Activated (peakStake env es) s.system)
      (fun s e s' ⟨hgraph, hviews, hs⟩ hexec ⟨hstep, hle⟩ =>
        ⟨hgraph.exec hviews.rows hexec, hviews.exec hexec,
          hs.exec hg hgraph hviews hexec hstep hle⟩)
      (h.and hbound) ⟨proxyGraph_init, viewsAgree_init, activated_init _⟩
  exact hinv.2.2

/-- In every run in which nobody takes back all of an activated stake, loses its
weight and stakes again, and no proxy without weight votes that was handed less
than nothing, each stake is activated at most once. -/
theorem activated_at_most_once (env : Env) (hg : ∀ t, 0 < env.voteFactor t) (es : List Event)
    (h : Rollback.Along (exec env) ActivationStep {} es) : ActivatedOnce env es := by
  have hs := run_activated hg h
  refine ⟨hs.once, (hs.total ▸ activated_le hs.bounded).trans ?_⟩
  refine OrderedTable.sum_le_of_nodup hs.once (fun a ha => ?_) (peakStake_nonneg es)
  obtain ⟨v, hv, -⟩ := hs.weighed a ha
  rw [hv]
  rfl

/-- Alice votes for a producer and takes back what she has staked. -/
def votedAndUnstaked : List Event :=
  genesis [stakeAccount, N "alice", N "prod"] (N "alice") ++
    [⟨[N "prod"], 0, .system (.regproducer (N "prod") ⟨0, List.replicate 33 1⟩ "" 0)⟩,
      ⟨[N "alice"], 0, .system (.delegatebw (N "alice") (N "alice") (core 1000000000000)
        (core 1000000000000) false)⟩,
      ⟨[N "alice"], 0, .system (.voteproducer (N "alice") 0 [N "prod"])⟩,
      ⟨[N "alice"], 0, .system (.undelegatebw (N "alice") (N "alice") (core 1000000000000)
        (core 1000000000000))⟩]

/-- The stake counts once, also after it has been taken back. -/
theorem activated_at_most_once_unstaked :
    ActivatedOnce .flat votedAndUnstaked ∧
      (run .flat {} votedAndUnstaked).system.activatedAccounts = [N "alice"] :=
  ⟨activated_at_most_once .flat (fun _ => one_pos) _ (by decide +kernel), by decide +kernel⟩

/-- When she stakes it again, it counts a second time. -/
theorem stake_activated_twice :
    let es := votedAndUnstaked ++
      [⟨[N "alice"], 0, .system (.delegatebw (N "alice") (N "alice") (core 1000000000000)
        (core 1000000000000) false)⟩]
    (run .flat {} es).system.activatedAccounts = [N "alice", N "alice"] ∧
      (run .flat {} es).system.global.totalActivatedStake = 4000000000000 ∧
      ((run .flat {} es).system.voters.sum fun a _ => peakStake .flat es a) = 2000000000000 ∧
      ¬ ActivatedOnce .flat es := by
  refine ⟨by decide +kernel, by decide +kernel, by decide +kernel, fun h => ?_⟩
  have honce := h.once
  revert honce
  decide +kernel

end Xidata.System
