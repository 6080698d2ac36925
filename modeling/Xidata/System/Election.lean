import Xidata.Library.Ranking
import Xidata.System.Effects
import Xidata.System.NameClosing

/-!
The election of producers.  The loop over the index `prototalvote` stops at the
first row that cannot be elected.  The key of an active row is its negated
votes, that of an inactive one its votes, so that the inactive rows come last
as long as none of them has less than no votes.
-/

namespace Xidata.System

open Eosiolib Ranking

variable {env : Env} {c : Ctx} {s s' : State}

/-! ### What is proposed -/

/-- What `update_elected_producers` hands to `set_proposed_producers`, if
anything. -/
def proposal (s : State) : Option (List (AccountName × PublicKey)) :=
  let top := topProducers s
  if top.length < s.global.lastProducerScheduleSize.toNat then none
  else some ((top.insertionSort fun a b => a.1 ≤ b.1).map fun p => (p.1, p.2.producerKey))

/-- The function proposes the proposal, and books the size of the schedule when it
is accepted. -/
theorem updateElectedProducers_eq (env : Env) (c : Ctx) (s : State) (blockTime : UInt32) :
    updateElectedProducers env c s blockTime =
      match proposal s with
      | none => { s with global := { s.global with lastProducerScheduleUpdate := blockTime } }
      | some producers =>
        if 0 ≤ env.setProposedProducers c.currentTime producers then
          { s with global := { s.global with
            lastProducerScheduleUpdate := blockTime
            lastProducerScheduleSize := producers.length.toUInt16 } }
        else { s with global := { s.global with lastProducerScheduleUpdate := blockTime } } := by
  simp only [updateElectedProducers, proposal]
  split
  · rfl
  · simp only [List.length_map, List.length_insertionSort]

/-! ### Who is elected -/

/-- Someone that can be elected. -/
def ProducerInfo.Eligible (p : ProducerInfo) : Prop := 0 < p.totalVotes ∧ p.isActive

instance (p : ProducerInfo) : Decidable p.Eligible := instDecidableAnd

/-- `a` is ahead of `b`: it has more votes, or as many and the smaller name. -/
def Ahead (a b : AccountName × ProducerInfo) : Prop :=
  b.2.totalVotes < a.2.totalVotes ∨ a.2.totalVotes = b.2.totalVotes ∧ a.1 < b.1

instance : DecidableRel Ahead := fun _ _ => instDecidableOr

namespace State

/-- Those who can be elected, in the order of their names. -/
def eligible (s : State) : List (AccountName × ProducerInfo) :=
  s.producers.rows.filter fun p => p.2.Eligible

/-- Those of them that fewer than `maxbp` are ahead of. -/
def elected (s : State) : List (AccountName × ProducerInfo) :=
  s.eligible.filter fun p => s.eligible.countP (fun q => Ahead q p) < maxbp

/-- What an election should propose. -/
def election (s : State) : Option (List (AccountName × PublicKey)) :=
  if s.elected.length < s.global.lastProducerScheduleSize.toNat then none
  else some (s.elected.map fun p => (p.1, p.2.producerKey))

/-- In the order of the index, every inactive producer comes after at least `maxbp`
of those that can be elected, or after all of them. -/
def InactiveBehind (s : State) : Prop :=
  ∀ p ∈ s.producers.rows, ¬ p.2.isActive → min maxbp s.eligible.length ≤
    s.eligible.countP fun q => toLex (q.2.byVotes, q.1) < toLex (p.2.byVotes, p.1)

end State

theorem ahead_asymm (a b : AccountName × ProducerInfo) (h : Ahead a b) : ¬ Ahead b a := by
  rintro (hba | ⟨hba, hname⟩)
  · rcases h with hab | ⟨hab, -⟩
    · exact lt_asymm hab hba
    · exact hba.ne hab
  · rcases h with hab | ⟨-, hname'⟩
    · exact hab.ne hba
    · exact lt_asymm hname hname'

/-- Among those that can be elected, the order of the index is the order of the
election. -/
theorem ahead_of_index {a b : AccountName × ProducerInfo} (ha : a.2.Eligible) (hb : b.2.Eligible)
    (h : toLex (a.2.byVotes, a.1) < toLex (b.2.byVotes, b.1)) : Ahead a b := by
  rw [ProducerInfo.byVotes, ProducerInfo.byVotes, if_pos ha.2, if_pos hb.2,
    Prod.Lex.toLex_lt_toLex] at h
  rcases h with hlt | ⟨heq, hname⟩
  · exact .inl (neg_lt_neg_iff.mp hlt)
  · exact .inr ⟨neg_injective heq, hname⟩

/-- Those that can be elected, in the order of the index. -/
def ranked (s : State) : List (AccountName × ProducerInfo) :=
  (s.producers.index ProducerInfo.byVotes).filter fun p => p.2.Eligible

theorem ranked_perm (s : State) : (ranked s).Perm s.eligible :=
  (OrderedTable.index_perm _ _).filter _

theorem ranked_ahead (s : State) : (ranked s).Pairwise Ahead := by
  have hstrict := (OrderedTable.index_strict s.producers ProducerInfo.byVotes).filter
    fun p => p.2.Eligible
  refine hstrict.imp_of_mem fun {a b} ha hb h => ahead_of_index ?_ ?_ h
  · exact of_decide_eq_true (List.mem_filter.mp ha).2
  · exact of_decide_eq_true (List.mem_filter.mp hb).2

/-- The elected are the first `maxbp`. -/
theorem elected_perm (s : State) : s.elected.Perm ((ranked s).take maxbp) := by
  have hcount : ∀ p, s.eligible.countP (fun q => Ahead q p) =
      (ranked s).countP (fun q => Ahead q p) := fun p => (ranked_perm s).symm.countP_eq _
  have hfirst := filter_countP_lt ahead_asymm (ranked_ahead s) 0 maxbp
  simp only [Nat.zero_add, Nat.sub_zero] at hfirst
  rw [← hfirst, State.elected]
  simp only [hcount]
  exact (ranked_perm s).symm.filter _

theorem elected_length (s : State) : s.elected.length = min maxbp s.eligible.length := by
  rw [(elected_perm s).length_eq, List.length_take, (ranked_perm s).length_eq]

theorem elected_names (s : State) : s.elected.Pairwise fun a b => a.1 < b.1 :=
  (s.producers.sorted.filter _).filter _

/-- Whoever is elected is ahead of those who are not. -/
theorem elected_ahead {s : State} {p q : AccountName × ProducerInfo} (hp : p ∈ s.elected)
    (hq : q ∈ s.eligible) (hnot : q ∉ s.elected) : Ahead p q := by
  have hsplit : ranked s = (ranked s).take maxbp ++ (ranked s).drop maxbp :=
    (List.take_append_drop _ _).symm
  have hp : p ∈ (ranked s).take maxbp := (elected_perm s).mem_iff.mp hp
  have hq : q ∈ (ranked s).drop maxbp := by
    have hmem : q ∈ ranked s := (ranked_perm s).mem_iff.mpr hq
    rw [hsplit] at hmem
    exact (List.mem_append.mp hmem).resolve_left fun h => hnot ((elected_perm s).mem_iff.mpr h)
  have hord := ranked_ahead s
  rw [hsplit] at hord
  exact (List.pairwise_append.mp hord).2.2 p hp q hq

/-! ### Whether the loop stops too early -/

/-- The order of the index `prototalvote`. -/
def IndexBefore (a b : AccountName × ProducerInfo) : Prop :=
  toLex (a.2.byVotes, a.1) < toLex (b.2.byVotes, b.1)

instance : DecidableRel IndexBefore := fun _ _ => inferInstanceAs (Decidable (toLex _ < toLex _))

/-- An active producer without votes comes after all that can be elected. -/
theorem indexBefore_of_active {a b : AccountName × ProducerInfo} (ha : a.2.Eligible)
    (hb : b.2.isActive) (hnot : ¬ b.2.Eligible) : IndexBefore a b := by
  have hvotes : b.2.totalVotes ≤ 0 := not_lt.mp fun hpos => hnot ⟨hpos, hb⟩
  rw [IndexBefore, ProducerInfo.byVotes, ProducerInfo.byVotes, if_pos ha.2, if_pos hb,
    Prod.Lex.toLex_lt_toLex]
  exact .inl (neg_lt_neg_iff.mpr (hvotes.trans_lt ha.1))

theorem notCut_iff_inactiveBehind (s : State) :
    NotCut IndexBefore (fun p => p.2.Eligible) (s.producers.index ProducerInfo.byVotes) maxbp ↔
      s.InactiveBehind := by
  have hlength : ((s.producers.index ProducerInfo.byVotes).filter fun p => p.2.Eligible).length =
      s.eligible.length := (ranked_perm s).length_eq
  have hcount : ∀ p, ((s.producers.index ProducerInfo.byVotes).filter
      fun p => p.2.Eligible).countP (fun q => IndexBefore q p) =
        s.eligible.countP fun q => IndexBefore q p := fun p => (ranked_perm s).countP_eq _
  rw [NotCut, hlength]
  constructor
  · intro hcut p hp hinactive
    have hle := hcut p ((OrderedTable.index_perm _ _).mem_iff.mpr hp)
      (decide_eq_false fun h => hinactive h.2)
    rw [hcount] at hle
    exact hle
  · intro hbehind p hp hnot
    have hp := (OrderedTable.index_perm _ _).mem_iff.mp hp
    rw [hcount]
    by_cases hactive : p.2.isActive
    · have hall : s.eligible.countP (fun q => IndexBefore q p) = s.eligible.length := by
        refine List.countP_eq_length.mpr fun q hq => decide_eq_true ?_
        exact indexBefore_of_active (of_decide_eq_true (List.mem_filter.mp hq).2) hactive
          (of_decide_eq_false hnot)
      rw [hall]
      exact min_le_right _ _
    · exact hbehind p hp hactive

/-- The loop finds the elected, or fewer. -/
theorem topProducers_cases (s : State) :
    (s.InactiveBehind ∧ (topProducers s).Perm s.elected) ∨
      (¬ s.InactiveBehind ∧ (topProducers s).length < s.elected.length) := by
  have hcases := take_takeWhile (r := IndexBefore) (fun _ _ h => lt_asymm h)
    (p := fun p => p.2.Eligible) (OrderedTable.index_strict s.producers ProducerInfo.byVotes) maxbp
  rw [notCut_iff_inactiveBehind] at hcases
  rw [(elected_perm s).length_eq]
  refine hcases.imp (fun ⟨hbehind, hsame⟩ => ⟨hbehind, ?_⟩) id
  have htop : topProducers s = (ranked s).take maxbp := hsame
  rw [htop]
  exact (elected_perm s).symm

theorem sort_of_perm_elected {s : State} {top : List (AccountName × ProducerInfo)}
    (h : top.Perm s.elected) : (top.insertionSort fun a b => a.1 ≤ b.1) = s.elected := by
  have hperm := (List.perm_insertionSort (fun a b => a.1 ≤ b.1) top).trans h
  have hsorted : (top.insertionSort fun a b => a.1 ≤ b.1).Pairwise fun a b => a.1 ≤ b.1 :=
    List.pairwise_insertionSort _ _
  refine hperm.eq_of_pairwise (fun a b ha hb hab hba => ?_) hsorted
    ((elected_names s).imp fun h => h.le)
  have hname : a.1 = b.1 := le_antisymm hab hba
  have ha := List.mem_of_mem_filter (List.mem_of_mem_filter (hperm.mem_iff.mp ha))
  have hb := List.mem_of_mem_filter (List.mem_of_mem_filter hb)
  have hrow : a.2 = b.2 := OrderedTable.eq_of_mem_rows (k := a.1) ha (hname ▸ hb)
  exact Prod.ext hname hrow

/-- The code holds the election exactly when it is not to propose anything, or no
inactive producer comes too early. -/
theorem proposal_eq_election_iff (s : State) :
    proposal s = s.election ↔
      min maxbp s.eligible.length < s.global.lastProducerScheduleSize.toNat ∨
        s.InactiveBehind := by
  rw [proposal, State.election, ← elected_length]
  rcases topProducers_cases s with ⟨hbehind, hperm⟩ | ⟨hnot, hfewer⟩
  · refine ⟨fun _ => .inr hbehind, fun _ => ?_⟩
    simp only [hperm.length_eq, sort_of_perm_elected hperm]
  · constructor
    · intro heq
      by_cases hsmall : s.elected.length < s.global.lastProducerScheduleSize.toNat
      · exact .inl hsmall
      · rw [if_neg hsmall] at heq
        split at heq
        · cases heq
        · have hlength := congrArg List.length (Option.some.inj heq)
          simp only [List.length_map, List.length_insertionSort] at hlength
          omega
    · rintro (hsmall | hbehind)
      · rw [if_pos (hfewer.trans hsmall), if_pos hsmall]
      · exact absurd hbehind hnot

/-- It does so when no inactive producer has less than no votes. -/
theorem inactiveBehind_of_nonneg {s : State}
    (h : ∀ p ∈ s.producers.rows, ¬ p.2.isActive → 0 ≤ p.2.totalVotes) : s.InactiveBehind := by
  intro p hp hinactive
  have hall : s.eligible.countP (fun q => toLex (q.2.byVotes, q.1) < toLex (p.2.byVotes, p.1)) =
      s.eligible.length := by
    refine List.countP_eq_length.mpr fun q hq => decide_eq_true ?_
    have hq : q.2.Eligible := of_decide_eq_true (List.mem_filter.mp hq).2
    rw [ProducerInfo.byVotes, ProducerInfo.byVotes, if_pos hq.2, if_neg hinactive,
      Prod.Lex.toLex_lt_toLex]
    exact .inl ((neg_neg_of_pos hq.1).trans_le (h p hp hinactive))
  rw [hall]
  exact min_le_right _ _

/-! ### The size of the schedule -/

/-- The schedule does not shrink, and stays within `maxbp`. -/
structure ScheduleGrows (s s' : State) : Prop where
  grows : s.global.lastProducerScheduleSize.toNat ≤ s'.global.lastProducerScheduleSize.toNat
  bounded : s.global.lastProducerScheduleSize.toNat ≤ maxbp →
    s'.global.lastProducerScheduleSize.toNat ≤ maxbp

namespace ScheduleGrows

theorem of_eq (h : s'.global.lastProducerScheduleSize = s.global.lastProducerScheduleSize) :
    ScheduleGrows s s' := ⟨h ▸ le_refl _, fun hs => h ▸ hs⟩

theorem refl (s : State) : ScheduleGrows s s := .of_eq rfl

theorem trans {s₁ s₂ s₃ : State} (h : ScheduleGrows s₁ s₂) (h' : ScheduleGrows s₂ s₃) :
    ScheduleGrows s₁ s₃ := ⟨h.grows.trans h'.grows, fun hs => h'.bounded (h.bounded hs)⟩

theorem writes : VoteWrites ScheduleGrows where
  refl := .refl
  trans := .trans
  setVoters _ _ := .of_eq rfl
  setVotes _ _ _ _ _ _ := .of_eq rfl
  skip _ _ := .of_eq rfl

theorem activateStake (s : State) (name : AccountName) (voter : VoterInfo) :
    ScheduleGrows s (activateStake c s name voter) := by
  unfold System.activateStake
  split <;> exact .of_eq rfl

theorem of_booked (h : Booked s s') : ScheduleGrows s s' := by
  obtain ⟨m, reserved, stake, account, res, rfl, -⟩ := h
  exact .of_eq rfl

theorem construct {token : Token.State} (h : construct token s = .ok s') : ScheduleGrows s s' := by
  rcases construct_cases h with rfl | ⟨-, m, rfl, -⟩ <;> exact .of_eq rfl

/-- A proposal is never shorter than the schedule, and never longer than `maxbp`. -/
theorem updateElectedProducers (env : Env) (c : Ctx) (s : State) (blockTime : UInt32) :
    ScheduleGrows s (updateElectedProducers env c s blockTime) := by
  have hmax : (topProducers s).length ≤ maxbp := List.length_take_le _ _
  have hsmall : (topProducers s).length.toUInt16.toNat = (topProducers s).length :=
    Nat.mod_eq_of_lt (hmax.trans_lt (by decide))
  rw [updateElectedProducers_eq, proposal]
  split
  · exact .of_eq rfl
  · rename_i producers hsome
    split at hsome
    · cases hsome
    · rename_i hle
      cases hsome
      split
      · simp only [List.length_map, List.length_insertionSort]
        exact ⟨hsmall.symm ▸ not_lt.mp hle, fun _ => hsmall.symm ▸ hmax⟩
      · exact .of_eq rfl

theorem onblock {timestamp : UInt32} {producer : AccountName}
    (h : onblock env c s timestamp producer = .ok s') : ScheduleGrows s s' := by
  have hcount : ScheduleGrows s (countBlock (startPervoteFill c s) producer) := by
    refine .of_eq ?_
    unfold countBlock startPervoteFill
    split <;> split <;> rfl
  have hclose : ∀ s : State, ScheduleGrows s (closeAuction c s timestamp) := fun s => by
    rcases closeAuction_cases c s timestamp with hsame | ⟨name, b, -, -, hset⟩
    · exact hsame.symm ▸ .refl s
    · exact hset.symm ▸ .of_eq rfl
  simp only [System.onblock, Rollback.bind_eq_ok, requireAuth_eq_ok, exists_const] at h
  obtain ⟨-, h⟩ := h
  split at h
  · cases h
    exact .refl s
  · split at h
    · have helect := hcount.trans (updateElectedProducers env c _ timestamp)
      split at h <;> cases h
      · exact helect.trans (hclose _)
      · exact helect
    · cases h
      exact hcount

theorem claimrewards {token : Token.State} {owner : AccountName} {r : State × List Token.Inline}
    (h : claimrewards env c token s owner = .ok r) : ScheduleGrows s r.1 := by
  simp only [System.claimrewards, Rollback.bind_eq_ok, getRow_eq_ok, requireAuth_eq_ok,
    eosioAssert_eq_ok, exists_const, Rollback.pure_eq_ok] at h
  obtain ⟨-, prod, -, -, -, -, filled, hfilled, _, -, _, -, rfl⟩ := h
  simp only [fillBuckets, Rollback.bind_eq_ok] at hfilled
  obtain ⟨tokenSupply, -, hfilled⟩ := hfilled
  split at hfilled
  · simp only [Rollback.bind_eq_ok, Rollback.pure_eq_ok] at hfilled
    obtain ⟨_, -, _, -, _, -, _, -, rfl⟩ := hfilled
    exact .of_eq rfl
  · cases hfilled
    exact .of_eq rfl

theorem bidname {bidder newname : AccountName} {bid : Asset} {r : State × List Token.Inline}
    (h : bidname c s bidder newname bid = .ok r) : ScheduleGrows s r.1 := by
  simp only [System.bidname, Rollback.bind_eq_ok, eosioAssert_eq_ok, requireAuth_eq_ok,
    exists_const] at h
  obtain ⟨-, -, -, -, -, -, -, -, h⟩ := h
  split at h
  · cases h
    exact .of_eq rfl
  · simp only [Rollback.bind_eq_ok, eosioAssert_eq_ok, exists_const, Rollback.pure_eq_ok] at h
    obtain ⟨-, -, -, back, -, rfl⟩ := h
    exact .of_eq rfl

/-- Registering or removing a producer writes its row only. -/
theorem of_registered {info : ProducerInfo} {k : AccountName} :
    ScheduleGrows s { s with producers := s.producers.set k info } := .of_eq rfl

theorem apply {token : Token.State} {a : Action} {r : State × List Token.Inline}
    (hs : StakeRows s) (h : apply env c token s a = .ok r) : ScheduleGrows s r.1 := by
  cases a with
  | onblock =>
      obtain ⟨s', hs', rfl⟩ := Rollback.map_eq_ok.mp h
      exact onblock hs'
  | claimrewards => exact claimrewards h
  | regproducer =>
      obtain ⟨s', hs', rfl⟩ := Rollback.map_eq_ok.mp h
      simp only [regproducer, Rollback.bind_eq_ok, Rollback.pure_eq_ok] at hs'
      obtain ⟨_, -, _, -, _, -, rfl⟩ := hs'
      exact of_registered
  | unregprod =>
      obtain ⟨s', hs', rfl⟩ := Rollback.map_eq_ok.mp h
      simp only [unregprod, Rollback.bind_eq_ok, Rollback.pure_eq_ok] at hs'
      obtain ⟨_, -, _, -, rfl⟩ := hs'
      exact of_registered
  | rmvproducer =>
      obtain ⟨s', hs', rfl⟩ := Rollback.map_eq_ok.mp h
      simp only [rmvproducer, Rollback.bind_eq_ok, Rollback.pure_eq_ok] at hs'
      obtain ⟨_, -, _, -, rfl⟩ := hs'
      exact of_registered
  | delegatebw from_ receiver n c transfer =>
      have hvoter := ((StakeAction.delegate ..).changed hs h).2.2.voter
      refine trans ?_ (writes.changeVoterStake activateStake hvoter)
      exact .of_eq rfl
  | undelegatebw from_ receiver n c =>
      have hvoter := ((StakeAction.undelegate ..).changed hs h).2.2.voter
      refine trans ?_ (writes.changeVoterStake activateStake hvoter)
      exact .of_eq rfl
  | refund =>
      obtain ⟨req, amount, -, -, -, rfl⟩ := refund_spec hs h
      exact .of_eq rfl
  | buyram => exact of_booked (buyram_booked h).1
  | buyrambytes =>
      obtain ⟨m, p, -, -, h⟩ := buyrambytes_cases h
      exact of_booked (buyram_booked h).1
  | sellram => exact of_booked (sellram_booked h).1
  | setram =>
      obtain ⟨s', hs', rfl⟩ := Rollback.map_eq_ok.mp h
      obtain ⟨-, -, -, m, -, rfl⟩ := setram_cases hs'
      exact .of_eq rfl
  | voteproducer =>
      obtain ⟨s', hs', rfl⟩ := Rollback.map_eq_ok.mp h
      exact writes.voteproducer activateStake hs'
  | regproxy =>
      obtain ⟨s', hs', rfl⟩ := Rollback.map_eq_ok.mp h
      exact writes.regproxy hs'
  | bidname => exact bidname h

theorem exec {s s' : Chain} {e : Event} (hs : StakeRows s.system) (h : exec env s e = .ok s') :
    ScheduleGrows s.system s'.system := by
  rcases exec_cases h with ⟨action, token, -, -, rfl⟩ |
    ⟨creator, newact, accounts, sys, system, -, -, hsys, hsystem, rfl⟩ |
    ⟨action, sys, r, token, -, hsys, hr, -, rfl⟩
  · exact .refl _
  · obtain ⟨namebids, -, -, rfl⟩ := newaccount_cases hsystem
    exact (construct hsys).trans (.of_eq rfl)
  · exact (construct hsys).trans (apply (hs.construct hsys) hr)

end ScheduleGrows

/-- The schedule along a run, and the rows it rests on. -/
theorem run_schedule (env : Env) {s : Chain} (hs : StakeRows s.system) (es : List Event) :
    StakeRows (run env s es).system ∧ ScheduleGrows s.system (run env s es).system :=
  Rollback.run_induction (I := fun s' => StakeRows s'.system ∧ ScheduleGrows s.system s'.system)
    (fun _ _ _ ⟨hrows, hgrown⟩ h => ⟨hrows.exec h, hgrown.trans (.exec hrows h)⟩) es
    ⟨hs, .refl _⟩

/-- For every set of producers, what is proposed is the election if and only if the
election is too small to be proposed, or every inactive producer comes after at
least `maxbp` of those that can be elected, or after all of them; and along every
run the schedule never shrinks, and never has more than `maxbp` producers. -/
theorem producer_elections (env : Env) :
    (∀ s : State, proposal s = s.election ↔
      min maxbp s.eligible.length < s.global.lastProducerScheduleSize.toNat ∨
        s.InactiveBehind) ∧
      ∀ es es' : List Event,
        (run env {} es).system.global.lastProducerScheduleSize.toNat ≤
            (run env {} (es ++ es')).system.global.lastProducerScheduleSize.toNat ∧
          (run env {} es).system.global.lastProducerScheduleSize.toNat ≤ maxbp := by
  refine ⟨proposal_eq_election_iff, fun es es' => ?_⟩
  obtain ⟨hrows, hgrown⟩ := run_schedule env (s := {}) stakeRows_init es
  have hon := (run_schedule env hrows es').2
  have happend : run env {} (es ++ es') = run env (run env {} es) es' := Rollback.run_append ..
  rw [happend]
  exact ⟨hon.grows, hgrown.bounded (Nat.zero_le _)⟩

/-- Two voters hand one vote each to a proxy, changes it does not pass on; when it
gives up being a proxy both are taken from the producer it votes for, who has
fewer than no votes from then on, and leaves.  Another one has a vote. -/
def takenNeverGiven : List Event :=
  genesis [stakeAccount, N "alice", N "proxy", N "one", N "two", N "gone", N "prod"] (N "alice") ++
    [⟨[N "gone"], 0, .system (.regproducer (N "gone") ⟨0, List.replicate 33 1⟩ "" 0)⟩,
      ⟨[N "prod"], 0, .system (.regproducer (N "prod") ⟨0, List.replicate 33 1⟩ "" 0)⟩,
      ⟨[N "proxy"], 0, .system (.regproxy (N "proxy") true)⟩,
      ⟨[N "proxy"], 0, .system (.voteproducer (N "proxy") 0 [N "gone"])⟩,
      ⟨[N "alice"], 0, .system (.delegatebw (N "alice") (N "one") (core 1) (core 0) true)⟩,
      ⟨[N "one"], 0, .system (.voteproducer (N "one") (N "proxy") [])⟩,
      ⟨[N "alice"], 0, .system (.delegatebw (N "alice") (N "two") (core 1) (core 0) true)⟩,
      ⟨[N "two"], 0, .system (.voteproducer (N "two") (N "proxy") [])⟩,
      ⟨[N "proxy"], 0, .system (.regproxy (N "proxy") false)⟩,
      ⟨[N "gone"], 0, .system (.unregprod (N "gone"))⟩,
      ⟨[N "alice"], 0, .system (.delegatebw (N "alice") (N "prod") (core 1) (core 0) true)⟩,
      ⟨[N "prod"], 0, .system (.voteproducer (N "prod") 0 [N "prod"])⟩,
      ⟨[N "alice"], 0, .system (.delegatebw (N "alice") (N "alice") (core 1000000000000)
        (core 1000000000000) false)⟩,
      ⟨[N "alice"], 0, .system (.voteproducer (N "alice") 0 [])⟩]

/-- The one who left comes first in the index, the loop stops there, and nobody is
proposed. -/
theorem inactive_comes_first :
    let s := (run .flat {} takenNeverGiven).system
    minActivatedStake ≤ s.global.totalActivatedStake ∧ proposal s = some [] ∧
      s.election = some [(N "prod", ⟨0, List.replicate 33 1⟩)] ∧ proposal s ≠ s.election := by
  intro s
  have hproposal : proposal s = some [] := by decide +kernel
  have helection : s.election = some [(N "prod", ⟨0, List.replicate 33 1⟩)] := by decide +kernel
  refine ⟨by decide +kernel, hproposal, helection, ?_⟩
  rw [hproposal, helection]
  intro h
  cases h

end Xidata.System
