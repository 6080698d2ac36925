import Mathlib.Tactic.Ring
import Xidata.System.Effects

/-!
The views of stake.  What is delegated, row by row, is also kept as totals for
the one who may use it, as the stake the delegator votes with, and as the
limits handed to the chain.  All of them agree in every reachable state.
-/

namespace Xidata.System

open Eosiolib

variable {env : Env}

def State.netOf (s : State) (a : AccountName) : ℤ :=
  (s.userres.find a).elim 0 fun r => r.netWeight.units

def State.cpuOf (s : State) (a : AccountName) : ℤ :=
  (s.userres.find a).elim 0 fun r => r.cpuWeight.units

def State.stakedOf (s : State) (a : AccountName) : ℤ :=
  (s.voters.find a).elim 0 fun v => v.staked.toInt

theorem State.units_fst (s : State) (a : AccountName) :
    ((s.userres.find a).elim 0 UserResources.units).1 = s.netOf a := by
  unfold State.netOf
  cases s.userres.find a <;> rfl

theorem State.units_snd (s : State) (a : AccountName) :
    ((s.userres.find a).elim 0 UserResources.units).2 = s.cpuOf a := by
  unfold State.cpuOf
  cases s.userres.find a <;> rfl

/-- The totals, the votes and the limits of every account are those of its
delegations. -/
structure ViewsAgree (s : State) : Prop where
  /-- No amount is negative. -/
  rows : StakeRows s
  owner : ∀ a r, s.userres.find a = some r → r.owner = a
  net : ∀ a, s.netOf a = s.delband.sum fun k r => if k.key = a then r.netWeight.units else 0
  cpu : ∀ a, s.cpuOf a = s.delband.sum fun k r => if k.key = a then r.cpuWeight.units else 0
  staked : ∀ a, s.stakedOf a =
    s.delband.sum fun k r => if k.scope = a then r.netWeight.units + r.cpuWeight.units else 0
  staked_nonneg : ∀ a, 0 ≤ s.stakedOf a
  limits : ∀ a r, s.userres.find a = some r →
    s.limits.find a = some ⟨r.ramBytes, r.netWeight.amount, r.cpuWeight.amount⟩
  /-- The last call for an account without a row set everything to zero. -/
  erased : ∀ a l, s.userres.find a = none → s.limits.find a = some l → l = ⟨0, 0, 0⟩

theorem viewsAgree_init : ViewsAgree {} where
  rows := stakeRows_init
  owner _ _ h := by cases h
  net _ := rfl
  cpu _ := rfl
  staked _ := rfl
  staked_nonneg _ := le_refl (0 : ℤ)
  limits _ _ h := by cases h
  erased _ _ _ h := by cases h

/-! ### What does not touch stake -/

theorem ViewsAgree.of_same {s s' : State} (h : ViewsAgree s) (hrows : StakeRows s')
    (hdelband : s'.delband = s.delband) (hres : SameResources s s')
    (hstaked : ∀ a, s'.stakedOf a = s.stakedOf a) : ViewsAgree s' where
  rows := hrows
  owner := hres.userres ▸ h.owner
  net a := by
    rw [hdelband, ← h.net a, State.netOf, hres.userres]
    rfl
  cpu a := by
    rw [hdelband, ← h.cpu a, State.cpuOf, hres.userres]
    rfl
  staked a := by rw [hdelband, hstaked a, h.staked a]
  staked_nonneg a := hstaked a ▸ h.staked_nonneg a
  limits a r hr := by
    rw [hres.limits]
    exact h.limits a r (hres.userres ▸ hr)
  erased a l hr hl := h.erased a l (hres.userres ▸ hr) (hres.limits ▸ hl)

theorem SameBase.stakedOf {s s' : State} (h : SameBase s s') (a : AccountName) :
    s'.stakedOf a = s.stakedOf a := by
  have hmap := congrArg (Option.map VoterInfo.staked) (h a)
  rw [Option.map_map, Option.map_map] at hmap
  unfold State.stakedOf
  cases hs' : s'.voters.find a <;> cases hs : s.voters.find a <;> simp_all [VoterInfo.base]

/-- A row of resources is written with the weights of the row before it, and
the limits are set from it. -/
theorem ViewsAgree.setResources {s s' : State} {account : AccountName} {res : UserResources}
    (h : ViewsAgree s) (hrows : StakeRows s') (howner : res.owner = account)
    (hnet : res.netWeight = (s.userres.find account).elim .zero UserResources.netWeight)
    (hcpu : res.cpuWeight = (s.userres.find account).elim .zero UserResources.cpuWeight)
    (hdelband : s'.delband = s.delband) (hvoters : s'.voters = s.voters)
    (huserres : s'.userres = s.userres.set account res)
    (hlimits : s'.limits = s.limits.set account res.limits) : ViewsAgree s' := by
  have hunits : res.units = (s.userres.find account).elim 0 UserResources.units := by
    rw [UserResources.units, hnet, hcpu]
    cases s.userres.find account <;> rfl
  have hsame : ∀ a, (s'.userres.find a).elim 0 UserResources.units =
      (s.userres.find a).elim 0 UserResources.units := fun a => by
    have hadj : s.userres.Adjusted (s.userres.set account res) account UserResources.units 0 :=
      .set (by rw [hunits, add_zero])
    rw [huserres, hadj.value a]
    simp
  refine ⟨hrows, fun a r hr => ?_, fun a => ?_, fun a => ?_, fun a => ?_, fun a => ?_,
    fun a r hr => ?_, fun a l hr hl => ?_⟩
  · rw [huserres, OrderedTable.find_set] at hr
    split at hr
    · rename_i ha
      cases hr
      exact howner.trans ha.symm
    · exact h.owner a r hr
  · rw [hdelband, ← h.net a, ← State.units_fst, ← State.units_fst, hsame]
  · rw [hdelband, ← h.cpu a, ← State.units_snd, ← State.units_snd, hsame]
  · rw [hdelband, ← h.staked a, State.stakedOf, hvoters]
    rfl
  · rw [State.stakedOf, hvoters]
    exact h.staked_nonneg a
  · rw [huserres, OrderedTable.find_set] at hr
    rw [hlimits, OrderedTable.find_set]
    split at hr
    · rename_i ha
      cases hr
      rw [if_pos ha]
      rfl
    · rename_i ha
      rw [if_neg ha]
      exact h.limits a r hr
  · rw [huserres, OrderedTable.find_set] at hr
    rw [hlimits, OrderedTable.find_set] at hl
    split at hr
    · cases hr
    · rename_i ha
      rw [if_neg ha] at hl
      exact h.erased a l hr hl

theorem ViewsAgree.of_booked {s s' : State} (h : ViewsAgree s) (hb : Booked s s') :
    ViewsAgree s' := by
  have hrows := h.rows.of_booked hb
  obtain ⟨m, reserved, stake, account, res, rfl, hnet, hcpu, hres⟩ := hb
  have howner : res.owner = account := by
    rw [hres]
    cases hold : s.userres.find account with
    | none => rfl
    | some old => exact h.owner account old hold
  exact h.setResources hrows howner hnet hcpu rfl rfl rfl (by rw [bookRam, howner])

/-! ### A change of stake -/

/-- The stake a voter has after a change: the assertion that it is not negative
also excludes that it has wrapped around. -/
theorem restakedVoter_staked {s : State} {from_ : AccountName} {total : Asset}
    (hold : 0 ≤ s.stakedOf from_) (htotal : total.isAmountWithinRange)
    (h : 0 ≤ (restakedVoter s from_ total.amount).staked.toInt) :
    (restakedVoter s from_ total.amount).staked.toInt = s.stakedOf from_ + total.units := by
  rw [Asset.isAmountWithinRange_iff] at htotal
  unfold restakedVoter at h ⊢
  unfold State.stakedOf at hold ⊢
  cases hv : s.voters.find from_ with
  | none => exact (zero_add _).symm
  | some v =>
      rw [hv, Option.elim_some] at hold
      simp only [hv, Int64.toInt_add, Option.elim_some] at h ⊢
      have hlt := Int64.toInt_lt v.staked
      have hunits : total.amount.toInt = total.units := rfl
      rw [hunits] at h ⊢
      rcases lt_or_ge (v.staked.toInt + total.units) (2 ^ 63) with hsmall | hlarge
      · exact Asset.bmod_eq_self (by omega) hsmall
      · rw [← Int.sub_bmod_right, Asset.bmod_eq_self (by omega) (by omega)] at h
        omega

theorem changeVoterStake_stakedOf {ctx : Ctx} {s s' : State} {from_ : AccountName} {n c : Asset}
    (hn : CoreAmount n) (hc : CoreAmount c) (hs : ∀ a, 0 ≤ s.stakedOf a)
    (h : changeVoterStake env ctx s from_ n c = .ok s') (a : AccountName) :
    s'.stakedOf a = s.stakedOf a + (if a = from_ then n.units + c.units else 0) ∧
      0 ≤ s'.stakedOf a := by
  obtain ⟨total, htotal, hnonneg, h⟩ := changeVoterStake_cases h
  obtain ⟨hcore, hunits⟩ := hn.add hc htotal
  have hstaked := restakedVoter_staked (hs from_) hcore.inRange hnonneg
  have hsame := recastVote_sameBase (OrderedTable.find_set_self ..) h
  rw [hsame.stakedOf a]
  unfold State.stakedOf at hs hstaked ⊢
  rw [OrderedTable.find_set]
  split
  · rename_i ha
    subst ha
    rw [Option.elim_some, hstaked, hunits]
    exact ⟨rfl, by omega⟩
  · exact ⟨(add_zero _).symm, hs a⟩

theorem ViewsAgree.of_stakeChanged {ctx : Ctx} {s s' : State}
    {source from_ receiver : AccountName} {n c : Asset} {sent : List Token.Inline}
    (h : ViewsAgree s) (hn : CoreAmount n) (hc : CoreAmount c)
    (hs : StakeChanged env ctx s s' source from_ receiver n c sent) : ViewsAgree s' := by
  obtain ⟨l, htotals, hlimits⟩ := hs.totals
  have hstaked := changeVoterStake_stakedOf hn hc (by exact h.staked_nonneg) hs.voter
  have hunits := htotals.units.value
  refine ⟨hs.rows, htotals.owner h.owner, fun a => ?_, fun a => ?_, fun a => ?_,
    fun a => (hstaked a).2, fun a r hr => ?_, fun a l' hr hl => ?_⟩
  · have hsum := hs.delband.sum (f := fun k u => if k.key = a then u.1 else 0) fun k u v => by
      split <;> simp
    have hunit := congrArg Prod.fst (hunits a)
    rw [Prod.fst_add, State.units_fst, State.units_fst, h.net a] at hunit
    rw [hunit]
    refine Eq.trans ?_ hsum.symm
    simp only [eq_comm (a := a)]
    congr 1
    split <;> rfl
  · have hsum := hs.delband.sum (f := fun k u => if k.key = a then u.2 else 0) fun k u v => by
      split <;> simp
    have hunit := congrArg Prod.snd (hunits a)
    rw [Prod.snd_add, State.units_snd, State.units_snd, h.cpu a] at hunit
    rw [hunit]
    refine Eq.trans ?_ hsum.symm
    simp only [eq_comm (a := a)]
    congr 1
    split <;> rfl
  · have hsum := hs.delband.sum (f := fun k u => if k.scope = a then u.1 + u.2 else 0)
      fun k u v => by
        split
        · rw [Prod.fst_add, Prod.snd_add]
          ring
        · rfl
    rw [(hstaked a).1]
    refine Eq.trans ?_ hsum.symm
    simp only [eq_comm (a := a)]
    exact congrArg₂ (· + ·) (h.staked a) rfl
  · rw [hlimits, OrderedTable.find_set]
    split
    · rename_i ha
      subst ha
      rw [htotals.limits, limitsOf, hr]
      rfl
    · rename_i ha
      exact h.limits a r (htotals.units.find_of_ne ha ▸ hr)
  · rw [hlimits, OrderedTable.find_set] at hl
    split at hl
    · rename_i ha
      subst ha
      cases hl
      rw [htotals.limits, limitsOf, hr]
      rfl
    · rename_i ha
      exact h.erased a l' (htotals.units.find_of_ne ha ▸ hr) hl

/-! ### Votes -/

theorem voteproducer_stakedOf {ctx : Ctx} {s s' : State} {name proxy : AccountName}
    {producers : List AccountName}
    (h : voteproducer env ctx s name proxy producers = .ok s') (a : AccountName) :
    s'.stakedOf a = s.stakedOf a := by
  simp only [voteproducer, Rollback.bind_eq_ok, requireAuth_eq_ok, exists_const] at h
  have hbase := congrArg (Option.map VoterInfo.staked) (updateVotes_base h.2 a)
  unfold State.stakedOf
  split at hbase
  · rename_i ha
    subst ha
    cases hs' : s'.voters.find a <;> cases hs : s.voters.find a <;>
      simp_all [VoterInfo.base]
  · cases hs' : s'.voters.find a <;> cases hs : s.voters.find a <;>
      simp_all [VoterInfo.base]

theorem regproxy_stakedOf {ctx : Ctx} {s s' : State} {proxy : AccountName} {isproxy : Bool}
    (h : regproxy env ctx s proxy isproxy = .ok s') (a : AccountName) :
    s'.stakedOf a = s.stakedOf a := by
  simp only [regproxy, Rollback.bind_eq_ok, requireAuth_eq_ok, exists_const] at h
  obtain ⟨-, h⟩ := h
  split at h
  · rename_i voter hvoter
    simp only [Rollback.bind_eq_ok, eosioAssert_eq_ok, exists_const] at h
    obtain ⟨-, -, h⟩ := h
    rw [(propagateWeightChange_sameBase h).stakedOf a]
    unfold State.stakedOf
    rw [OrderedTable.find_set]
    split
    · rename_i ha
      rw [ha, hvoter]
      rfl
    · rfl
  · rename_i hnone
    cases h
    unfold State.stakedOf
    rw [OrderedTable.find_set]
    split
    · rename_i ha
      rw [ha, hnone]
      rfl
    · rfl

theorem SameVotes.stakedOf {s s' : State} (h : SameVotes s s') (a : AccountName) :
    s'.stakedOf a = s.stakedOf a := by
  rw [State.stakedOf, h.voters]
  rfl

/-! ### Every event -/

theorem ViewsAgree.apply {ctx : Ctx} {token : Token.State} {s : State} {a : Action}
    {r : State × List Token.Inline} (hs : ViewsAgree s)
    (h : apply env ctx token s a = .ok r) : ViewsAgree r.1 := by
  have hrows := hs.rows.apply h
  cases apply_effect h with
  | stake ha =>
      obtain ⟨hn, hc, hchanged⟩ := ha.changed hs.rows h
      exact hs.of_stakeChanged hn hc hchanged
  | refund he =>
      obtain ⟨req, amount, -, -, -, rfl⟩ := refund_spec hs.rows he
      exact hs.of_same hrows rfl ⟨rfl, rfl⟩ fun _ => rfl
  | buyram he => exact hs.of_booked (buyram_booked he).1
  | buyrambytes _ _ he => exact hs.of_booked (buyram_booked he).1
  | sellram he => exact hs.of_booked (sellram_booked he).1
  | setram he =>
      obtain ⟨-, -, -, m, -, hr⟩ := setram_cases he
      rw [hr] at hrows ⊢
      exact hs.of_same hrows rfl ⟨rfl, rfl⟩ fun _ => rfl
  | voteproducer he =>
      have hframe := voteproducer_frame he
      exact hs.of_same hrows hframe.delband hframe.toSameResources (voteproducer_stakedOf he)
  | regproxy he =>
      have hframe := regproxy_frame he
      exact hs.of_same hrows hframe.delband hframe.toSameResources (regproxy_stakedOf he)
  | bidname he =>
      exact hs.of_same hrows he.delband he.toSameResources he.toSameVotes.stakedOf
  | onblock he =>
      exact hs.of_same hrows he.delband he.toSameResources he.toSameVotes.stakedOf
  | quiet _ he =>
      exact hs.of_same hrows he.delband he.toSameResources he.toSameVotes.stakedOf

theorem ViewsAgree.construct {token : Token.State} {s s' : State} (hs : ViewsAgree s)
    (h : construct token s = .ok s') : ViewsAgree s' := by
  have hrows := hs.rows.construct h
  rcases construct_cases h with rfl | ⟨-, m, rfl, -⟩
  · exact hs
  · exact hs.of_same hrows rfl ⟨rfl, rfl⟩ fun _ => rfl

theorem ViewsAgree.newaccount {s s' : State} {creator newact : AccountName}
    (hs : ViewsAgree s) (hrows : StakeRows s') (h : newaccount s creator newact = .ok s') :
    ViewsAgree s' := by
  obtain ⟨namebids, -, hnone, rfl⟩ := newaccount_cases h
  have howner : ({ owner := newact } : UserResources).owner = newact := rfl
  exact hs.setResources hrows howner (by rw [hnone]; rfl) (by rw [hnone]; rfl) rfl rfl rfl rfl

theorem ViewsAgree.exec {s s' : Chain} {e : Event} (hs : ViewsAgree s.system)
    (h : exec env s e = .ok s') : ViewsAgree s'.system := by
  have hrows := hs.rows.exec h
  rcases exec_cases h with ⟨action, token, -, -, rfl⟩ |
    ⟨creator, newact, accounts, sys, system, -, -, hsys, hsystem, rfl⟩ |
    ⟨action, sys, r, token, -, hsys, hr, -, rfl⟩
  · exact hs
  · exact (hs.construct hsys).newaccount hrows hsystem
  · exact (hs.construct hsys).apply hr

/-- After every run the totals of an account are the sums over what is
delegated to it, its stake is the sum over what it delegates, no amount is
negative, and the last limits set for it are those of its row, or zero when the
row is gone. -/
theorem stake_views_agree (env : Env) (es : List Event) : ViewsAgree (run env {} es).system :=
  Rollback.run_induction (I := fun s : Chain => ViewsAgree s.system)
    (fun _ _ _ hs h => hs.exec h) es viewsAgree_init

end Xidata.System
