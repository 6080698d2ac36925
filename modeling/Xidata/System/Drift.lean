import Mathlib.Tactic.Ring
import Xidata.System.ProxyGraph

/-!
Accounting of votes.  What a producer has is what the voters without a proxy
gave it, what a proxy was handed is what those who chose it weigh, and the
total is the sum over the producers.

While an action runs the three differ; the difference is the drift of the
state, and each part of `update_votes` is described by what it adds to the
drift.  A change of weight that is passed on adds nothing, provided that none
was found too small to pass on.
-/

namespace Xidata.System

open Eosiolib SuccessorGraph

variable {env : Env} {ctx : Ctx}

/-! ### Who gave what -/

/-- What the last vote of a voter gave to the producer `p`. -/
def VoterInfo.votesFor (v : VoterInfo) (p : AccountName) : ℚ :=
  if v.proxy = 0 ∧ p ∈ v.producers then v.lastVoteWeight else 0

/-- What the last vote of a voter handed to `q`. -/
def VoterInfo.handedTo (v : VoterInfo) (q : AccountName) : ℚ :=
  if v.proxy ≠ 0 ∧ v.proxy = q then v.lastVoteWeight else 0

namespace State

def totalVotes (s : State) (p : AccountName) : ℚ :=
  (s.producers.find p).elim 0 ProducerInfo.totalVotes

def votesFor (s : State) (p : AccountName) : ℚ := s.voters.sum fun _ v => v.votesFor p

def proxied (s : State) (q : AccountName) : ℚ :=
  (s.voters.find q).elim 0 VoterInfo.proxiedVoteWeight

def handedTo (s : State) (q : AccountName) : ℚ := s.voters.sum fun _ v => v.handedTo q

def votesSum (s : State) : ℚ := s.producers.sum fun _ p => p.totalVotes

def votesDrift (s : State) (p : AccountName) : ℚ := s.totalVotes p - s.votesFor p

def proxyDrift (s : State) (q : AccountName) : ℚ := s.proxied q - s.handedTo q

end State

/-- Every producer, every proxy and the total have what the voters gave. -/
structure VotesAgree (s : State) : Prop where
  votes : ∀ p, s.totalVotes p = s.votesFor p
  proxied : ∀ q, s.proxied q = s.handedTo q
  total : s.global.totalProducerVoteWeight = s.votesSum

/-- From `s` to `s'` the producers drift by `x`, the proxies by `y`, and the
total not at all. -/
structure Drifted (s s' : State) (x y : AccountName → ℚ) : Prop where
  votes : ∀ p, s'.votesDrift p = s.votesDrift p + x p
  proxied : ∀ q, s'.proxyDrift q = s.proxyDrift q + y q
  total : s'.global.totalProducerVoteWeight - s'.votesSum =
    s.global.totalProducerVoteWeight - s.votesSum

namespace Drifted

variable {s s' s₁ s₂ s₃ : State} {x y x' y' : AccountName → ℚ}

theorem congr (h : Drifted s s' x y) (hx : ∀ p, x p = x' p) (hy : ∀ q, y q = y' q) :
    Drifted s s' x' y' :=
  ⟨fun p => hx p ▸ h.votes p, fun q => hy q ▸ h.proxied q, h.total⟩

theorem trans (h : Drifted s₁ s₂ x y) (h' : Drifted s₂ s₃ x' y') :
    Drifted s₁ s₃ (fun p => x p + x' p) (fun q => y q + y' q) where
  votes p := by rw [h'.votes, h.votes, add_assoc]
  proxied q := by rw [h'.proxied, h.proxied, add_assoc]
  total := h'.total.trans h.total

theorem of_eq (hv : s'.voters = s.voters) (hp : s'.producers = s.producers)
    (hg : s'.global.totalProducerVoteWeight = s.global.totalProducerVoteWeight) :
    Drifted s s' 0 0 where
  votes p := by
    simp only [State.votesDrift, State.totalVotes, State.votesFor, hv, hp, Pi.zero_apply, add_zero]
  proxied q := by
    simp only [State.proxyDrift, State.proxied, State.handedTo, hv, Pi.zero_apply, add_zero]
  total := by rw [hg, State.votesSum, hp, State.votesSum]

theorem votesAgree (h : Drifted s s' x y) (hs : VotesAgree s) (hx : ∀ p, x p = 0)
    (hy : ∀ q, y q = 0) : VotesAgree s' where
  votes p := by
    have hvotes := h.votes p
    rw [State.votesDrift, State.votesDrift, hs.votes, hx, sub_self, add_zero] at hvotes
    exact sub_eq_zero.mp hvotes
  proxied q := by
    have hproxied := h.proxied q
    rw [State.proxyDrift, State.proxyDrift, hs.proxied, hy, sub_self, add_zero] at hproxied
    exact sub_eq_zero.mp hproxied
  total := by
    have htotal := h.total
    rw [hs.total, sub_self] at htotal
    exact sub_eq_zero.mp htotal

end Drifted

/-- A voter's row is written: its proxied weight grows by `d`, and its vote
moves from where it was to where it is now. -/
theorem drifted_setVoter {s : State} {k : AccountName} {v : VoterInfo} {d : ℚ}
    (hd : v.proxiedVoteWeight = s.proxied k + d) :
    Drifted s { s with voters := s.voters.set k v }
      (fun p => (s.voters.find k).elim 0 (fun u => u.votesFor p) - v.votesFor p)
      (fun q => (if q = k then d else 0) +
        ((s.voters.find k).elim 0 (fun u => u.handedTo q) - v.handedTo q)) where
  votes p := by
    simp only [State.votesDrift, State.votesFor, OrderedTable.sum_set_sub]
    simp only [State.totalVotes]
    ring
  proxied q := by
    have hadj : s.voters.Adjusted (s.voters.set k v) k VoterInfo.proxiedVoteWeight d := .set hd
    simp only [State.proxyDrift, State.handedTo, OrderedTable.sum_set_sub]
    simp only [State.proxied, hadj.value q]
    split_ifs <;> ring
  total := rfl

/-- A proxy is handed `d` more. -/
theorem drifted_setProxied {s : State} {k : AccountName} {v : VoterInfo}
    (hv : s.voters.find k = some v) (d : ℚ) :
    Drifted s { s with
        voters := s.voters.set k { v with proxiedVoteWeight := v.proxiedVoteWeight + d } }
      0 (fun q => if q = k then d else 0) := by
  refine (drifted_setVoter (d := d) ?_).congr (fun p => ?_) fun q => ?_
  · rw [State.proxied, hv]
    rfl
  · rw [hv]
    exact sub_self _
  · rw [hv]
    exact (congrArg _ (sub_self _)).trans (add_zero _)

/-- A voter's vote moves from where it was to where `f` puts it. -/
theorem drifted_modify {s : State} {k : AccountName} {v : VoterInfo} {f : VoterInfo → VoterInfo}
    (hv : s.voters.find k = some v) (hf : (f v).proxiedVoteWeight = v.proxiedVoteWeight) :
    Drifted s { s with voters := s.voters.modify k f }
      (fun p => v.votesFor p - (f v).votesFor p) (fun q => v.handedTo q - (f v).handedTo q) := by
  rw [OrderedTable.modify_eq_set hv]
  refine (drifted_setVoter (d := 0) ?_).congr (fun p => ?_) fun q => ?_
  · rw [State.proxied, hv, add_zero]
    exact hf
  · rw [hv]
    rfl
  · rw [hv, ite_self, zero_add]
    rfl

/-- A producer gains `d` votes, and so does the total. -/
theorem drifted_setProducer {s : State} {k : AccountName} {info : ProducerInfo}
    (hk : s.producers.find k = some info) (d : ℚ) :
    Drifted s { s with
        producers := s.producers.set k { info with totalVotes := info.totalVotes + d }
        global := { s.global with
          totalProducerVoteWeight := s.global.totalProducerVoteWeight + d } }
      (fun p => if p = k then d else 0) 0 where
  votes p := by
    have hadj : s.producers.Adjusted
        (s.producers.set k { info with totalVotes := info.totalVotes + d }) k
        ProducerInfo.totalVotes d := .set (by rw [hk]; rfl)
    simp only [State.votesDrift, State.totalVotes, hadj.value p]
    simp only [State.votesFor]
    split_ifs <;> ring
  proxied q := (add_zero _).symm
  total := by
    simp only [State.votesSum, OrderedTable.sum_set_sub, hk, Option.elim_some]
    ring

/-! ### Voters in order -/

/-- Stakes are not negative, and votes are for distinct registered producers. -/
structure VotersOk (s : State) : Prop where
  staked : ∀ a v, s.voters.find a = some v → 0 ≤ v.staked.toInt
  nodup : ∀ a v, s.voters.find a = some v → v.producers.Nodup
  registered : ∀ a v, s.voters.find a = some v →
    ∀ p ∈ v.producers, (s.producers.find p).isSome

structure WeightsOk (s : State) : Prop where
  last : ∀ a v, s.voters.find a = some v → 0 ≤ v.lastVoteWeight
  proxied : ∀ a v, s.voters.find a = some v → 0 ≤ v.proxiedVoteWeight

theorem VotersOk.of_sameBase {s s' : State} (hs : VotersOk s) (h : SameBase s s')
    (hg : Grows s s') : VotersOk s' where
  staked a v hv := by
    obtain ⟨v', hv', hbase⟩ := h.find hv
    exact (congrArg (fun u : VoterInfo => 0 ≤ u.staked.toInt) hbase).mpr (hs.staked a v' hv')
  nodup a v hv := by
    obtain ⟨v', hv', hbase⟩ := h.find hv
    exact (congrArg (fun u : VoterInfo => u.producers.Nodup) hbase).mpr (hs.nodup a v' hv')
  registered a v hv p hp := by
    obtain ⟨v', hv', hbase⟩ := h.find hv
    have hp' : p ∈ v'.producers :=
      (congrArg (fun u : VoterInfo => p ∈ u.producers) hbase).mp hp
    exact hg.registered p (hs.registered a v' hv' p hp')

theorem VotersOk.set {s : State} {k : AccountName} {v : VoterInfo} (hs : VotersOk s)
    (hstaked : 0 ≤ v.staked.toInt) (hnodup : v.producers.Nodup)
    (hreg : ∀ p ∈ v.producers, (s.producers.find p).isSome) :
    VotersOk { s with voters := s.voters.set k v } := by
  refine ⟨fun a u hu => ?_, fun a u hu => ?_, fun a u hu => ?_⟩ <;>
    rw [OrderedTable.find_set] at hu <;> split at hu
  · cases hu
    exact hstaked
  · exact hs.staked a u hu
  · cases hu
    exact hnodup
  · exact hs.nodup a u hu
  · cases hu
    exact hreg
  · exact hs.registered a u hu

theorem WeightsOk.of_voters_eq {s s' : State} (hs : WeightsOk s) (h : s'.voters = s.voters) :
    WeightsOk s' := ⟨h ▸ hs.last, h ▸ hs.proxied⟩

theorem WeightsOk.set {s : State} {k : AccountName} {v : VoterInfo} (hs : WeightsOk s)
    (hlast : 0 ≤ v.lastVoteWeight) (hproxied : 0 ≤ v.proxiedVoteWeight) :
    WeightsOk { s with voters := s.voters.set k v } := by
  refine ⟨fun a u hu => ?_, fun a u hu => ?_⟩ <;> rw [OrderedTable.find_set] at hu <;>
    split at hu
  · cases hu
    exact hlast
  · exact hs.last a u hu
  · cases hu
    exact hproxied
  · exact hs.proxied a u hu

theorem WeightsOk.votesFor_nonneg {s : State} (hs : WeightsOk s) (p : AccountName) {a : AccountName}
    {v : VoterInfo} (hv : s.voters.find a = some v) : 0 ≤ v.votesFor p := by
  unfold VoterInfo.votesFor
  split
  · exact hs.last a v hv
  · exact le_refl _

theorem WeightsOk.handedTo_nonneg {s : State} (hs : WeightsOk s) (q : AccountName)
    {a : AccountName} {v : VoterInfo} (hv : s.voters.find a = some v) : 0 ≤ v.handedTo q := by
  unfold VoterInfo.handedTo
  split
  · exact hs.last a v hv
  · exact le_refl _

/-- A producer that has not lost votes has at least those of any one voter. -/
theorem WeightsOk.votesFor_le {s : State} (hs : WeightsOk s) {a : AccountName} {v : VoterInfo}
    (hv : s.voters.find a = some v) {p : AccountName} (hdrift : 0 ≤ s.votesDrift p) :
    v.votesFor p ≤ s.totalVotes p := by
  have hle : v.votesFor p ≤ s.votesFor p :=
    OrderedTable.le_sum (t := s.voters) (f := fun _ u => u.votesFor p)
      (fun _ _ hu => hs.votesFor_nonneg p hu) hv
  rw [State.votesDrift] at hdrift
  linarith

theorem WeightsOk.handedTo_le {s : State} (hs : WeightsOk s) {a : AccountName} {v : VoterInfo}
    (hv : s.voters.find a = some v) {q : AccountName} (hdrift : 0 ≤ s.proxyDrift q) :
    v.handedTo q ≤ s.proxied q := by
  have hle : v.handedTo q ≤ s.handedTo q :=
    OrderedTable.le_sum (t := s.voters) (f := fun _ u => u.handedTo q)
      (fun _ _ hu => hs.handedTo_nonneg q hu) hv
  rw [State.proxyDrift] at hdrift
  linarith

theorem weight_nonneg {s : State} (hg : ∀ t, 0 ≤ env.voteFactor t) (hs : VotersOk s)
    (hw : WeightsOk s) {a : AccountName} {v : VoterInfo} (hv : s.voters.find a = some v) :
    0 ≤ v.weight env ctx := by
  have hstake : 0 ≤ stake2vote env ctx v.staked :=
    mul_nonneg (by exact_mod_cast hs.staked a v hv) (hg _)
  unfold VoterInfo.weight
  split
  · exact add_nonneg hstake (hw.proxied a v hv)
  · exact add_nonneg hstake (le_refl _)

/-! ### Passing a change on -/

/-- The voters of producers that are all different gain `d` each. -/
theorem addToProducers_drifted {d : ℚ} {s s' : State} {l : List AccountName} (hl : l.Nodup)
    (h : l.foldlM (addToProducers d) s = .ok s') :
    Drifted s s' (fun p => if p ∈ l then d else 0) 0 := by
  induction l generalizing s with
  | nil =>
      cases h
      exact (Drifted.of_eq rfl rfl rfl).congr (fun p => by simp) fun _ => rfl
  | cons k l ih =>
      obtain ⟨hk, hl⟩ := List.nodup_cons.mp hl
      rw [List.foldlM_cons, Rollback.bind_eq_ok] at h
      obtain ⟨m, hm, h⟩ := h
      simp only [addToProducers, Rollback.bind_eq_ok, getRow_eq_ok, Rollback.pure_eq_ok] at hm
      obtain ⟨info, hinfo, rfl⟩ := hm
      refine ((drifted_setProducer hinfo d).trans (ih hl h)).congr (fun p => ?_)
        fun _ => add_zero _
      by_cases hp : p = k
      · rw [hp, if_pos rfl, if_neg hk, add_zero, if_pos (by simp)]
      · simp [hp]

/-- A state in which a change may be passed on from `name`: no proxy further
along has less than what it was handed. -/
structure Passable (s : State) (name : AccountName) : Prop where
  graph : ProxyGraph s
  voters : VotersOk s
  weights : WeightsOk s
  along : ∀ b, Relation.TransGen (Edge s.proxyOf) name b → 0 ≤ s.proxyDrift b

/-- Handing `d` more to a proxy that keeps a weight that is not negative. -/
theorem Passable.setProxied {s : State} {k : AccountName} {v : VoterInfo} (hs : ProxyGraph s)
    (hvoters : VotersOk s) (hweights : WeightsOk s) (hv : s.voters.find k = some v) {d : ℚ}
    (hd : 0 ≤ v.proxiedVoteWeight + d)
    (halong : ∀ b, Relation.TransGen (Edge s.proxyOf) k b → 0 ≤ s.proxyDrift b) :
    Passable { s with
      voters := s.voters.set k { v with proxiedVoteWeight := v.proxiedVoteWeight + d } } k := by
  have hbase := SameBase.setProxied hv (v.proxiedVoteWeight + d)
  refine ⟨hs.of_sameBase hbase, hvoters.of_sameBase hbase (.setVoters s _),
    hweights.set (hweights.last k v hv) hd, fun b hb => ?_⟩
  rw [hbase.proxyOf] at hb
  have hne : b ≠ k := fun he => hs.acyclic k (he ▸ hb)
  rw [(drifted_setProxied hv d).proxied, if_neg hne, add_zero]
  exact halong b hb

/-- What passing a change on leaves behind. -/
structure Passed (s s' : State) : Prop where
  drifted : Drifted s s' 0 0
  voters : VotersOk s'
  weights : WeightsOk s'

theorem propagateWithin_passed {depth : ℕ} {s s' : State} {name : AccountName}
    (hg : ∀ t, 0 ≤ env.voteFactor t) (hs : Passable s name)
    (h : propagateWithin env ctx depth s name = .ok s') (hskipped : s'.skipped = 0) :
    Passed s s' := by
  induction depth generalizing s s' name with
  | zero => cases h
  | succ depth ih =>
      have hvoters := hs.voters.of_sameBase (propagateWithin_sameBase h) (Grows.writes.propagateWithin h)
      obtain ⟨voter, m, hvoter, hself, rfl, hm⟩ := hs.graph.propagateWithin_cases h
      have hweight : 0 ≤ voter.weight env ctx := weight_nonneg hg hs.voters hs.weights hvoter
      -- what the change does before the weight of the voter itself is written
      have hpassed : WeightsOk m ∧ Drifted s m
          (fun p => { voter with lastVoteWeight := voter.weight env ctx }.votesFor p -
            voter.votesFor p)
          (fun q => { voter with lastVoteWeight := voter.weight env ctx }.handedTo q -
            voter.handedTo q) := by
        rcases hm with ⟨hne, hedge, proxy, hfind, hrec⟩ | ⟨hzero, hsame, hfold⟩ | rfl
        · have hhanded : voter.handedTo voter.proxy ≤ s.proxied voter.proxy :=
            hs.weights.handedTo_le hvoter (hs.along _ (.single hedge))
          rw [VoterInfo.handedTo, if_pos ⟨hne, rfl⟩, State.proxied, hfind,
            Option.elim_some] at hhanded
          have hnext := Passable.setProxied hs.graph hs.voters hs.weights hfind
            (d := voter.weight env ctx - voter.lastVoteWeight) (by linarith)
            fun b hb => hs.along b (.head hedge hb)
          have hrest := ih hnext hrec hskipped
          refine ⟨hrest.weights,
            ((drifted_setProxied hfind _).trans hrest.drifted).congr (fun p => ?_) fun q => ?_⟩
          · simp [VoterInfo.votesFor, hne]
          · by_cases hq : q = voter.proxy
            · simp [VoterInfo.handedTo, hne, hq]
            · simp [VoterInfo.handedTo, hq, Ne.symm hq]
        · refine ⟨hs.weights.of_voters_eq hsame,
            (addToProducers_drifted (hs.voters.nodup name voter hvoter) hfold).congr
              (fun p => ?_) fun q => ?_⟩
          · by_cases hp : p ∈ voter.producers <;> simp [VoterInfo.votesFor, hzero, hp]
          · simp [VoterInfo.handedTo, hzero]
        · have hnothing : voter.weight env ctx - voter.lastVoteWeight = 0 := by
            by_contra hne
            rw [if_neg hne] at hskipped
            exact Nat.succ_ne_zero _ hskipped
          rw [sub_eq_zero.mp hnothing]
          refine ⟨⟨hs.weights.last, hs.weights.proxied⟩, ?_⟩
          refine Drifted.congr (x := 0) (y := 0) ?_ (fun p => (sub_self _).symm)
            fun q => (sub_self _).symm
          exact .of_eq rfl rfl rfl
      obtain ⟨hweights, hdrift⟩ := hpassed
      refine ⟨(hdrift.trans (drifted_modify hself rfl)).congr (fun p => ?_) fun q => ?_, hvoters,
        ?_⟩
      · exact sub_add_sub_cancel ..  |>.trans (sub_self _)
      · exact sub_add_sub_cancel ..  |>.trans (sub_self _)
      · rw [OrderedTable.modify_eq_set hself]
        exact hweights.set hweight (hweights.proxied name voter hself)

/-- Handing `d` more to a proxy and passing the change on: only the proxy
itself drifts. -/
theorem handed_passed {s m : State} {k : AccountName} {v : VoterInfo} {d : ℚ}
    (hg : ∀ t, 0 ≤ env.voteFactor t) (hs : ProxyGraph s) (hvoters : VotersOk s)
    (hweights : WeightsOk s) (hv : s.voters.find k = some v)
    (hd : 0 ≤ v.proxiedVoteWeight + d)
    (halong : ∀ b, Relation.TransGen (Edge s.proxyOf) k b → 0 ≤ s.proxyDrift b)
    (h : propagateWeightChange env ctx { s with
      voters := s.voters.set k { v with proxiedVoteWeight := v.proxiedVoteWeight + d } } k = .ok m)
    (hskipped : m.skipped = 0) :
    Drifted s m 0 (fun q => if q = k then d else 0) ∧ VotersOk m ∧ WeightsOk m := by
  have hpassed := propagateWithin_passed hg (.setProxied hs hvoters hweights hv hd halong) h
    hskipped
  exact ⟨((drifted_setProxied hv d).trans hpassed.drifted).congr (fun _ => add_zero _)
    fun _ => add_zero _, hpassed.voters, hpassed.weights⟩

end Xidata.System
