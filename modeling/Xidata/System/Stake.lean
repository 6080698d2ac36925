import Mathlib.Algebra.Group.Prod
import Xidata.System.Frame

/-!
What one change of stake does to the tables.  Every block of `changebw` gets
one lemma saying what it writes: a delegation row and the receiver's totals
grow by the two deltas, a pending refund gives up what the deltas take from
it, and the rest of the deltas is what the payer transfers.

All amounts in these tables are in the core token, in range and not negative,
so that the checked arithmetic on them is exact.
-/

namespace Xidata.System

open Eosiolib

/-! ### Amounts of stake -/

/-- An amount of the core token, in range. -/
structure CoreAmount (a : Asset) : Prop where
  symbol : a.symbol = coreSymbol
  inRange : a.isAmountWithinRange

/-- An amount of stake is a core amount that is not negative. -/
structure StakeAmount (a : Asset) : Prop extends CoreAmount a where
  nonneg : 0 ≤ a.units

theorem CoreAmount.zero : CoreAmount .zero := ⟨rfl, by decide⟩

theorem StakeAmount.zero : StakeAmount .zero := ⟨CoreAmount.zero, le_refl (0 : ℤ)⟩

theorem CoreAmount.neg {a : Asset} (ha : CoreAmount a) : CoreAmount a.neg :=
  ⟨ha.symbol, Asset.neg_isAmountWithinRange ha.inRange⟩

theorem CoreAmount.units_neg {a : Asset} (ha : CoreAmount a) : a.neg.units = -a.units :=
  Asset.units_neg ha.inRange

theorem CoreAmount.add {a b s : Asset} (ha : CoreAmount a) (hb : CoreAmount b)
    (h : a.add b = .ok s) : CoreAmount s ∧ s.units = a.units + b.units := by
  have hunits := Asset.add_units ha.inRange hb.inRange h
  obtain ⟨-, rfl, hrange⟩ := Asset.add_eq_ok.mp h
  exact ⟨⟨ha.symbol, hrange⟩, hunits⟩

theorem CoreAmount.sub {a b s : Asset} (ha : CoreAmount a) (hb : CoreAmount b)
    (h : a.sub b = .ok s) : CoreAmount s ∧ s.units = a.units - b.units := by
  have hunits := Asset.sub_units ha.inRange hb.inRange h
  obtain ⟨-, rfl, hrange⟩ := Asset.sub_eq_ok.mp h
  exact ⟨⟨ha.symbol, hrange⟩, hunits⟩

/-- The sum of the raw amounts is exact too. -/
theorem CoreAmount.amount_add {a b : Asset} (ha : CoreAmount a) (hb : CoreAmount b) :
    (a.amount + b.amount).toInt = a.units + b.units :=
  Asset.units_add ha.inRange hb.inRange coreSymbol

/-! ### The tables -/

/-- The amounts of a row as integers, net and cpu. -/
def DelegatedBandwidth.units (r : DelegatedBandwidth) : ℤ × ℤ :=
  (r.netWeight.units, r.cpuWeight.units)

def UserResources.units (r : UserResources) : ℤ × ℤ := (r.netWeight.units, r.cpuWeight.units)

def UserResources.ram (r : UserResources) : ℤ := r.ramBytes.toInt

def RefundRequest.units (r : RefundRequest) : ℤ × ℤ := (r.netAmount.units, r.cpuAmount.units)

/-- The amounts stored about stake are amounts of stake. -/
structure StakeRows (s : State) : Prop where
  delband : ∀ k r, s.delband.find k = some r → StakeAmount r.netWeight ∧ StakeAmount r.cpuWeight
  userres : ∀ k r, s.userres.find k = some r → StakeAmount r.netWeight ∧ StakeAmount r.cpuWeight
  refunds : ∀ k r, s.refunds.find k = some r → StakeAmount r.netAmount ∧ StakeAmount r.cpuAmount

/-! ### The delegation row and the totals -/

/-- The weights that pass are amounts of stake. -/
theorem checkWeights_spec {net cpu : Asset} {netMsg cpuMsg : String} {empty : Bool}
    (hnet : CoreAmount net) (hcpu : CoreAmount cpu)
    (h : checkWeights net cpu netMsg cpuMsg = .ok empty) :
    StakeAmount net ∧ StakeAmount cpu ∧ (empty = true ↔ net.units = 0 ∧ cpu.units = 0) := by
  simp only [checkWeights, Rollback.bind_eq_ok, eosioAssert_eq_ok, exists_const, Asset.le_eq_ok,
    Asset.eq_eq_ok, Rollback.pure_eq_ok] at h
  obtain ⟨_, ⟨-, rfl⟩, hn, _, ⟨-, rfl⟩, hc, _, ⟨-, rfl⟩, _, ⟨-, rfl⟩, rfl⟩ := h
  refine ⟨⟨hnet, of_decide_eq_true hn⟩, ⟨hcpu, of_decide_eq_true hc⟩, ?_⟩
  rw [Bool.and_eq_true_iff, decide_eq_true_iff, decide_eq_true_iff, Asset.units_zero]

theorem delbandRow_spec {t : OrderedTable Scoped DelegatedBandwidth}
    {from_ receiver : AccountName} {n c : Asset} {row : DelegatedBandwidth}
    (ht : ∀ k r, t.find k = some r → StakeAmount r.netWeight ∧ StakeAmount r.cpuWeight)
    (hn : CoreAmount n) (hc : CoreAmount c) (h : delbandRow t from_ receiver n c = .ok row) :
    CoreAmount row.netWeight ∧ CoreAmount row.cpuWeight ∧
      row.units = (t.find ⟨from_, receiver⟩).elim 0 DelegatedBandwidth.units +
        (n.units, c.units) := by
  unfold delbandRow at h
  split at h
  · rename_i hfind
    cases h
    rw [hfind]
    exact ⟨hn, hc, (zero_add _).symm⟩
  · rename_i dbo hfind
    simp only [Rollback.bind_eq_ok, Rollback.pure_eq_ok] at h
    obtain ⟨netWeight, hnet, cpuWeight, hcpu, rfl⟩ := h
    obtain ⟨hold, hold'⟩ := ht _ _ hfind
    obtain ⟨hnew, hunits⟩ := hold.toCoreAmount.add hn hnet
    obtain ⟨hnew', hunits'⟩ := hold'.toCoreAmount.add hc hcpu
    rw [hfind]
    exact ⟨hnew, hnew', Prod.ext hunits hunits'⟩

theorem updateDelband_spec {t t' : OrderedTable Scoped DelegatedBandwidth}
    {from_ receiver : AccountName} {n c : Asset}
    (ht : ∀ k r, t.find k = some r → StakeAmount r.netWeight ∧ StakeAmount r.cpuWeight)
    (hn : CoreAmount n) (hc : CoreAmount c) (h : updateDelband t from_ receiver n c = .ok t') :
    (∀ k r, t'.find k = some r → StakeAmount r.netWeight ∧ StakeAmount r.cpuWeight) ∧
      t.Adjusted t' ⟨from_, receiver⟩ DelegatedBandwidth.units (n.units, c.units) := by
  simp only [updateDelband, Rollback.bind_eq_ok, Rollback.pure_eq_ok] at h
  obtain ⟨row, hrow, empty, hempty, rfl⟩ := h
  obtain ⟨hnet, hcpu, hunits⟩ := delbandRow_spec ht hn hc hrow
  obtain ⟨hnet, hcpu, hzero⟩ := checkWeights_spec hnet hcpu hempty
  refine ⟨fun k r hr => ?_, .set_or_erase hunits fun he => ?_⟩
  · rcases OrderedTable.find_set_or_erase hr with ⟨-, rfl⟩ | hr
    · exact ⟨hnet, hcpu⟩
    · exact ht k r hr
  · obtain ⟨h₁, h₂⟩ := hzero.mp he
    exact Prod.ext h₁ h₂

theorem totalsRow_spec {t : OrderedTable AccountName UserResources} {receiver : AccountName}
    {n c : Asset} {row : UserResources}
    (ht : ∀ k r, t.find k = some r → StakeAmount r.netWeight ∧ StakeAmount r.cpuWeight)
    (hn : CoreAmount n) (hc : CoreAmount c) (h : totalsRow t receiver n c = .ok row) :
    CoreAmount row.netWeight ∧ CoreAmount row.cpuWeight ∧
      row.units = (t.find receiver).elim 0 UserResources.units + (n.units, c.units) ∧
      row.ram = (t.find receiver).elim 0 UserResources.ram ∧
      row.owner = (t.find receiver).elim receiver UserResources.owner := by
  unfold totalsRow at h
  split at h
  · rename_i hfind
    cases h
    rw [hfind]
    exact ⟨hn, hc, (zero_add _).symm, rfl, rfl⟩
  · rename_i tot hfind
    simp only [Rollback.bind_eq_ok, Rollback.pure_eq_ok] at h
    obtain ⟨netWeight, hnet, cpuWeight, hcpu, rfl⟩ := h
    obtain ⟨hold, hold'⟩ := ht _ _ hfind
    obtain ⟨hnew, hunits⟩ := hold.toCoreAmount.add hn hnet
    obtain ⟨hnew', hunits'⟩ := hold'.toCoreAmount.add hc hcpu
    rw [hfind]
    exact ⟨hnew, hnew', Prod.ext hunits hunits', rfl, rfl⟩

/-- The limits a row stands for, an erased row for none. -/
def limitsOf (t : OrderedTable AccountName UserResources) (a : AccountName) : ResourceLimits :=
  (t.find a).elim ⟨0, 0, 0⟩ UserResources.limits

/-- `t'` is `t` with the deltas added to the totals of `receiver`, and `l` is
what its row now stands for. -/
structure TotalsChanged (t t' : OrderedTable AccountName UserResources) (receiver : AccountName)
    (n c : ℤ) (l : ResourceLimits) : Prop where
  rows : ∀ k r, t'.find k = some r → StakeAmount r.netWeight ∧ StakeAmount r.cpuWeight
  owner : (∀ k r, t.find k = some r → r.owner = k) → ∀ k r, t'.find k = some r → r.owner = k
  units : t.Adjusted t' receiver UserResources.units (n, c)
  ram : t.Adjusted t' receiver UserResources.ram 0
  limits : l = limitsOf t' receiver

theorem updateTotals_spec {t : OrderedTable AccountName UserResources}
    {r : OrderedTable AccountName UserResources × ResourceLimits} {receiver : AccountName}
    {n c : Asset}
    (ht : ∀ k r, t.find k = some r → StakeAmount r.netWeight ∧ StakeAmount r.cpuWeight)
    (hn : CoreAmount n) (hc : CoreAmount c) (h : updateTotals t receiver n c = .ok r) :
    TotalsChanged t r.1 receiver n.units c.units r.2 := by
  simp only [updateTotals, Rollback.bind_eq_ok, Rollback.pure_eq_ok] at h
  obtain ⟨row, hrow, empty, hempty, rfl⟩ := h
  obtain ⟨hnet, hcpu, hunits, hram, howner⟩ := totalsRow_spec ht hn hc hrow
  obtain ⟨hnet, hcpu, hzero⟩ := checkWeights_spec hnet hcpu hempty
  have hgone : (empty && row.ramBytes == 0) = true →
      row.units = 0 ∧ row.ramBytes = 0 := fun he => by
    obtain ⟨he, hr⟩ := Bool.and_eq_true_iff.mp he
    obtain ⟨h₁, h₂⟩ := hzero.mp he
    exact ⟨Prod.ext h₁ h₂, eq_of_beq hr⟩
  refine ⟨fun k r hr => ?_, fun ho k r hr => ?_, .set_or_erase hunits fun he => (hgone he).1,
    .set_or_erase (by rw [hram, add_zero]) fun he => ?_, ?_⟩
  · rcases OrderedTable.find_set_or_erase hr with ⟨-, rfl⟩ | hr
    · exact ⟨hnet, hcpu⟩
    · exact ht k r hr
  · rcases OrderedTable.find_set_or_erase hr with ⟨rfl, rfl⟩ | hr
    · rw [howner]
      cases hf : t.find k with
      | none => rfl
      | some tot => exact ho k tot hf
    · exact ho k r hr
  · rw [UserResources.ram, (hgone he).2]
    rfl
  · cases he : (empty && row.ramBytes == 0) with
    | false => simp [limitsOf]
    | true =>
        obtain ⟨hu, hr⟩ := hgone he
        have h₁ : row.netWeight.amount = 0 := Int64.toInt_inj.mp (congrArg Prod.fst hu)
        have h₂ : row.cpuWeight.amount = 0 := Int64.toInt_inj.mp (congrArg Prod.snd hu)
        simp [limitsOf, UserResources.limits, h₁, h₂, hr]

/-! ### The pending refund -/

/-- What a refund loses is what is left of the delta less the delta, and
nothing negative is left. -/
theorem settleRefund_spec {amount delta : Asset} {r : Asset × Asset} (ha : CoreAmount amount)
    (hd : CoreAmount delta) (h : settleRefund amount delta = .ok r) :
    StakeAmount r.1 ∧ StakeAmount r.2 ∧ r.1.units = amount.units + (r.2.units - delta.units) := by
  simp only [settleRefund, Rollback.bind_eq_ok, Asset.lt_eq_ok, Rollback.pure_eq_ok] at h
  obtain ⟨rest, hrest, _, ⟨-, rfl⟩, rfl⟩ := h
  obtain ⟨hcore, hunits⟩ := ha.sub hd hrest
  by_cases hneg : rest.units < Asset.zero.units
  · rw [decide_eq_true hneg]
    have hn := hcore.units_neg
    rw [Asset.units_zero] at hneg
    refine ⟨.zero, ⟨hcore.neg, ?_⟩, ?_⟩
    · simp only [if_true]
      omega
    · simp only [if_true, Asset.units_zero]
      omega
  · rw [decide_eq_false hneg]
    rw [Asset.units_zero] at hneg
    refine ⟨⟨hcore, ?_⟩, .zero, ?_⟩
    · simp only [Bool.false_eq_true, if_false]
      omega
    · simp only [Bool.false_eq_true, if_false, Asset.units_zero]
      omega

/-- A refund created for a negative delta takes all of it. -/
theorem freshRefund_spec {delta : Asset} {below : Bool} (hd : CoreAmount delta)
    (h : decide (delta.units < Asset.zero.units) = below) :
    StakeAmount (if below then delta.neg else .zero) ∧
      StakeAmount (if below then .zero else delta) ∧
      (if below then delta.neg else .zero : Asset).units =
        (if below then .zero else delta : Asset).units - delta.units := by
  have hneg := hd.units_neg
  rw [Asset.units_zero] at h
  cases below with
  | true =>
      have hlt := of_decide_eq_true h
      refine ⟨⟨hd.neg, ?_⟩, .zero, ?_⟩
      · simp only [if_true]
        omega
      · simp only [if_true, Asset.units_zero]
        omega
  | false =>
      have hge := of_decide_eq_false h
      refine ⟨.zero, ⟨hd, ?_⟩, ?_⟩
      · simp only [Bool.false_eq_true, if_false]
        omega
      · simp only [Bool.false_eq_true, if_false, Asset.units_zero]
        omega

/-- The refund of `from_` after a change of stake, and what is left of the
deltas for the payer. -/
structure RefundChanged (t t' : OrderedTable AccountName RefundRequest) (from_ : AccountName)
    (n c : ℤ) (netRest cpuRest : Asset) : Prop where
  rows : ∀ k r, t'.find k = some r → StakeAmount r.netAmount ∧ StakeAmount r.cpuAmount
  net : StakeAmount netRest
  cpu : StakeAmount cpuRest
  units : t.Adjusted t' from_ RefundRequest.units (netRest.units - n, cpuRest.units - c)

theorem updateRefund_spec {c : Ctx} {t : OrderedTable AccountName RefundRequest}
    {from_ : AccountName} {n u : Asset}
    {r : OrderedTable AccountName RefundRequest × Bool × Asset × Asset}
    (ht : ∀ k r, t.find k = some r → StakeAmount r.netAmount ∧ StakeAmount r.cpuAmount)
    (hn : CoreAmount n) (hu : CoreAmount u) (h : updateRefund c t from_ n u = .ok r) :
    RefundChanged t r.1 from_ n.units u.units r.2.2.1 r.2.2.2 := by
  simp only [updateRefund, Rollback.bind_eq_ok, Asset.lt_eq_ok] at h
  obtain ⟨netBelow, ⟨-, hnb⟩, cpuBelow, ⟨-, hcb⟩, h⟩ := h
  split at h
  · rename_i req hfind
    obtain ⟨hreqNet, hreqCpu⟩ := ht _ _ hfind
    simp only [Rollback.bind_eq_ok, Asset.le_eq_ok, Asset.eq_eq_ok, eosioAssert_eq_ok,
      exists_const] at h
    obtain ⟨net, hnet, cpu, hcpu, _, -, -, _, -, -, _, ⟨-, rfl⟩, _, ⟨-, rfl⟩, h⟩ := h
    obtain ⟨hnet₁, hnet₂, hnetEq⟩ := settleRefund_spec hreqNet.toCoreAmount hn hnet
    obtain ⟨hcpu₁, hcpu₂, hcpuEq⟩ := settleRefund_spec hreqCpu.toCoreAmount hu hcpu
    split at h
    · rename_i hzero
      obtain ⟨h₁, h₂⟩ := Bool.and_eq_true_iff.mp hzero
      cases h
      refine ⟨fun k r hr => ?_, hnet₂, hcpu₂, .erase ?_⟩
      · rw [OrderedTable.find_erase] at hr
        split at hr
        · cases hr
        · exact ht k r hr
      · rw [hfind]
        exact Prod.ext (hnetEq.symm.trans (of_decide_eq_true h₁))
          (hcpuEq.symm.trans (of_decide_eq_true h₂))
    · cases h
      refine ⟨fun k r hr => ?_, hnet₂, hcpu₂, .set ?_⟩
      · rw [OrderedTable.find_set] at hr
        split at hr
        · cases hr
          exact ⟨hnet₁, hcpu₁⟩
        · exact ht k r hr
      · rw [hfind]
        exact Prod.ext hnetEq hcpuEq
  · rename_i hfind
    obtain ⟨hnet₁, hnet₂, hnetEq⟩ := freshRefund_spec hn hnb
    obtain ⟨hcpu₁, hcpu₂, hcpuEq⟩ := freshRefund_spec hu hcb
    split at h
    · cases h
      refine ⟨fun k r hr => ?_, hnet₂, hcpu₂, .set ?_⟩
      · rw [OrderedTable.find_set] at hr
        split at hr
        · cases hr
          exact ⟨hnet₁, hcpu₁⟩
        · exact ht k r hr
      · rw [hfind]
        exact (Prod.ext hnetEq hcpuEq).trans (zero_add _).symm
    · rename_i hnone
      cases h
      obtain ⟨rfl, rfl⟩ : netBelow = false ∧ cpuBelow = false := by simpa using hnone
      exact ⟨ht, hnet₂, hcpu₂, ⟨rfl, Prod.ext (by simp) (by simp)⟩⟩

/-- What `changeRefund` does to the refunds, and the one transfer it sends when
something is left to pay. -/
structure RefundStep (t t' : OrderedTable AccountName RefundRequest) (source from_ : AccountName)
    (n c : Asset) (sent : List Token.Inline) : Prop where
  rows : ∀ k r, t'.find k = some r → StakeAmount r.netAmount ∧ StakeAmount r.cpuAmount
  paid : ∃ amount : Asset, StakeAmount amount ∧
    (∃ x y, t.Adjusted t' from_ RefundRequest.units (x - n.units, y - c.units) ∧
      amount.units = x + y) ∧
    sent = if 0 < amount.units then
      [inlineTransfer source stakeAccount amount "stake bandwidth"] else []

theorem changeRefund_spec {ctx : Ctx} {s : State} {source from_ receiver : AccountName}
    {n c : Asset} {transfer : Bool} {r : State × List Token.Inline}
    (hs : ∀ k r, s.refunds.find k = some r → StakeAmount r.netAmount ∧ StakeAmount r.cpuAmount)
    (hn : CoreAmount n) (hc : CoreAmount c)
    (hsign : 0 ≤ n.units ∧ 0 ≤ c.units ∨ n.units + c.units < 0)
    (h : changeRefund ctx s source from_ receiver n c transfer = .ok r) :
    r.1 = { s with refunds := r.1.refunds, deferred := r.1.deferred } ∧
      RefundStep s.refunds r.1.refunds source from_ n c r.2 := by
  have hadd := hn.amount_add hc
  have hbelow : n.amount + c.amount < 0 ↔ n.units + c.units < 0 := by
    rw [Int64.lt_iff_toInt_lt, hadd]
    rfl
  simp only [changeRefund, hbelow, Rollback.bind_eq_ok, Asset.lt_eq_ok, Rollback.pure_eq_ok] at h
  obtain ⟨u, hu, amount, hamount, positive, ⟨-, rfl⟩, rfl⟩ := h
  have hsend : ∀ {x y : Asset}, StakeAmount x → StakeAmount y → x.add y = .ok amount →
      StakeAmount amount ∧ amount.units = x.units + y.units := fun hx hy hxy => by
    obtain ⟨hcore, hunits⟩ := hx.toCoreAmount.add hy.toCoreAmount hxy
    have hx := hx.nonneg
    have hy := hy.nonneg
    exact ⟨⟨hcore, by omega⟩, hunits⟩
  split at hu
  · rename_i hlook
    have hrefund := updateRefund_spec hs hn hc hu
    obtain ⟨hstake, hunits⟩ := hsend hrefund.net hrefund.cpu hamount
    exact ⟨rfl, hrefund.rows, ⟨amount, hstake, ⟨_, _, hrefund.units, hunits⟩,
      if_congr decide_eq_true_iff rfl rfl⟩⟩
  · rename_i hlook
    obtain ⟨hn', hc'⟩ : 0 ≤ n.units ∧ 0 ≤ c.units := hsign.resolve_right fun hlt =>
      hlook (.inr hlt)
    cases hu
    obtain ⟨hstake, hunits⟩ := hsend ⟨hn, hn'⟩ ⟨hc, hc'⟩ hamount
    exact ⟨rfl, hs, ⟨amount, hstake, ⟨_, _, ⟨rfl, Prod.ext (by simp) (by simp)⟩, hunits⟩,
      if_congr decide_eq_true_iff rfl rfl⟩⟩

/-! ### The voter -/

/-- A vote cast again leaves every choice and stake as it is. -/
theorem recastVote_sameBase {ctx : Ctx} {s s' : State} {name : AccountName} {voter : VoterInfo}
    (hvoter : s.voters.find name = some voter)
    (h : recastVote env ctx s name voter = .ok s') : SameBase s s' := by
  unfold recastVote at h
  split at h
  · intro a
    rw [updateVotes_base h a]
    split
    · rename_i ha
      rw [ha, hvoter]
      rfl
    · rfl
  · cases h
    exact .refl s

theorem changeVoterStake_cases {ctx : Ctx} {s s' : State} {from_ : AccountName} {n c : Asset}
    (h : changeVoterStake env ctx s from_ n c = .ok s') :
    ∃ total : Asset, n.add c = .ok total ∧
      0 ≤ (restakedVoter s from_ total.amount).staked.toInt ∧
      recastVote env ctx { s with
          voters := s.voters.set from_ (restakedVoter s from_ total.amount) }
        from_ (restakedVoter s from_ total.amount) = .ok s' := by
  simp only [changeVoterStake, Rollback.bind_eq_ok, eosioAssert_eq_ok, exists_const] at h
  obtain ⟨total, htotal, hnonneg, _, -, h⟩ := h
  exact ⟨total, htotal, Int64.le_iff_toInt_le.mp hnonneg, h⟩

theorem VoteWrites.changeVoterStake {R : State → State → Prop} (hR : VoteWrites R) {ctx : Ctx}
    (hact : ∀ s name voter, R s (activateStake ctx s name voter)) {s s' : State}
    {from_ : AccountName} {n c : Asset} (h : changeVoterStake env ctx s from_ n c = .ok s') :
    R s s' := by
  obtain ⟨total, -, -, h⟩ := changeVoterStake_cases h
  have hrestaked := hR.setVoters s (s.voters.set from_ (restakedVoter s from_ total.amount))
  unfold recastVote at h
  split at h
  · obtain ⟨voter, -, hvoted⟩ := hR.updateVotes h
    exact hR.trans (hR.trans hrestaked (hact _ _ _)) hvoted
  · cases h
    exact hrestaked

theorem changeVoterStake_frame {ctx : Ctx} {s s' : State} {from_ : AccountName} {n c : Asset}
    (h : changeVoterStake env ctx s from_ n c = .ok s') : VoteFrame s s' :=
  VoteFrame.writes.changeVoterStake activateStake_frame h

/-! ### The actions -/

/-- The tables after a successful change of stake by `source`, for which
`from_` is charged, and what `source` sends. -/
structure StakeChanged (env : Env) (ctx : Ctx) (s s' : State)
    (source from_ receiver : AccountName) (n c : Asset) (sent : List Token.Inline) : Prop where
  authorised : source ∈ ctx.auth
  rows : StakeRows s'
  delband : s.delband.Adjusted s'.delband ⟨from_, receiver⟩ DelegatedBandwidth.units
    (n.units, c.units)
  totals : ∃ l, TotalsChanged s.userres s'.userres receiver n.units c.units l ∧
    s'.limits = s.limits.set receiver l
  refund : source ≠ stakeAccount →
    RefundStep s.refunds s'.refunds source from_ n c sent
  noRefund : source = stakeAccount → s'.refunds = s.refunds ∧ sent = []
  voter : changeVoterStake env ctx { s with
      delband := s'.delband, userres := s'.userres, limits := s'.limits, refunds := s'.refunds,
      deferred := s'.deferred } from_ n c = .ok s'

/-- The voter's part of a change of stake leaves the tables written before it. -/
theorem stakeChanged_of_voter {ctx : Ctx} {s s' : State} {source from_ receiver : AccountName}
    {n c : Asset} {sent : List Token.Inline}
    {delband : OrderedTable Scoped DelegatedBandwidth}
    {totals : OrderedTable AccountName UserResources × ResourceLimits}
    {refunds : OrderedTable AccountName RefundRequest}
    {deferred : OrderedTable AccountName DeferredRefund} (hauth : source ∈ ctx.auth)
    (hdelband : (∀ k r, delband.find k = some r →
        StakeAmount r.netWeight ∧ StakeAmount r.cpuWeight) ∧
      s.delband.Adjusted delband ⟨from_, receiver⟩ DelegatedBandwidth.units (n.units, c.units))
    (htotals : TotalsChanged s.userres totals.1 receiver n.units c.units totals.2)
    (hrows : ∀ k r, refunds.find k = some r → StakeAmount r.netAmount ∧ StakeAmount r.cpuAmount)
    (hrefund : source ≠ stakeAccount →
      RefundStep s.refunds refunds source from_ n c sent)
    (hnone : source = stakeAccount → refunds = s.refunds ∧ sent = [])
    (h : changeVoterStake env ctx { s with
        delband, userres := totals.1, limits := s.limits.set receiver totals.2, refunds, deferred }
      from_ n c = .ok s') :
    StakeChanged env ctx s s' source from_ receiver n c sent := by
  obtain ⟨⟨hdelband', hrefunds, hdeferred⟩, ⟨huserres, hlimits⟩, -, -⟩ :=
    changeVoterStake_frame h
  dsimp only at huserres hdelband' hrefunds hlimits hdeferred
  subst hdelband' hrefunds hdeferred
  rw [← huserres] at htotals
  refine ⟨hauth, ⟨hdelband.1, htotals.rows, hrows⟩, hdelband.2, ⟨totals.2, htotals, hlimits⟩,
    hrefund, hnone, ?_⟩
  rw [huserres, hlimits]
  exact h

theorem changebw_cases {ctx : Ctx} {s : State} {source receiver : AccountName} {n c : Asset}
    {transfer : Bool} {r : State × List Token.Inline}
    (h : changebw env ctx s source receiver n c transfer = .ok r) :
    ∃ delband totals m, source ∈ ctx.auth ∧
      updateDelband s.delband (if transfer then receiver else source) receiver n c =
        .ok delband ∧
      updateTotals s.userres receiver n c = .ok totals ∧
      (if stakeAccount ≠ source then
        changeRefund ctx { s with
            delband, userres := totals.1, limits := s.limits.set receiver totals.2 }
          source (if transfer then receiver else source) receiver n c transfer
      else pure ({ s with
        delband, userres := totals.1, limits := s.limits.set receiver totals.2 }, [])) =
        .ok m ∧
      changeVoterStake env ctx m.1 (if transfer then receiver else source) n c = .ok r.1 ∧
      r.2 = m.2 := by
  simp only [changebw, Rollback.bind_eq_ok, requireAuth_eq_ok, eosioAssert_eq_ok, exists_const,
    Rollback.pure_eq_ok] at h
  obtain ⟨hauth, _, -, _, -, -, _, -, -, delband, hdelband, totals, htotals, m, hm, s', hs', rfl⟩ :=
    h
  exact ⟨delband, totals, m, hauth, hdelband, htotals, hm, hs', rfl⟩

theorem changebw_spec {ctx : Ctx} {s : State} {source receiver : AccountName} {n c : Asset}
    {transfer : Bool} {r : State × List Token.Inline} (hs : StakeRows s)
    (hn : CoreAmount n) (hc : CoreAmount c)
    (hsign : 0 ≤ n.units ∧ 0 ≤ c.units ∨ n.units + c.units < 0)
    (h : changebw env ctx s source receiver n c transfer = .ok r) :
    StakeChanged env ctx s r.1 source (if transfer then receiver else source) receiver n c
      r.2 := by
  obtain ⟨delband, totals, m, hauth, hdelband, htotals, hm, hs', hsent⟩ := changebw_cases h
  rw [hsent]
  have hdelband := updateDelband_spec hs.delband hn hc hdelband
  have htotals := updateTotals_spec hs.userres hn hc htotals
  split at hm
  · rename_i hsource
    obtain ⟨hm, hrefund⟩ := changeRefund_spec (by exact hs.refunds) hn hc hsign hm
    rw [hm] at hs'
    exact stakeChanged_of_voter hauth hdelband htotals hrefund.rows (fun _ => hrefund)
      (fun he => absurd he.symm hsource) hs'
  · rename_i hsource
    cases hm
    exact stakeChanged_of_voter hauth hdelband htotals hs.refunds
      (fun hne => absurd (not_not.mp hsource).symm hne) (fun _ => ⟨rfl, rfl⟩) hs'

/-- Two amounts that are not negative and whose checked sum is positive: the
sum has not wrapped around, so both are in range. -/
theorem stakeAmounts_of_sum {a b both : Asset} (ha : a.symbol = coreSymbol) (ha₀ : 0 ≤ a.units)
    (hb₀ : 0 ≤ b.units) (h : a.add b = .ok both) (hpos : 0 < both.units) :
    StakeAmount a ∧ StakeAmount b ∧ 0 < a.units + b.units := by
  obtain ⟨hsym, hboth, hrange⟩ := Asset.add_eq_ok.mp h
  have hle := (Asset.isAmountWithinRange_iff.mp hrange).2
  have hsum : both.units = (a.units + b.units).bmod (2 ^ 64) := by
    rw [hboth]
    exact Int64.toInt_add ..
  have ha₁ : a.units < 2 ^ 63 := Int64.toInt_lt a.amount
  have hb₁ : b.units < 2 ^ 63 := Int64.toInt_lt b.amount
  have hexact : a.units + b.units ≤ 2 ^ 62 - 1 ∧ 0 < a.units + b.units := by
    rcases lt_or_ge (a.units + b.units) (2 ^ 63) with hlt | hge
    · rw [Asset.bmod_eq_self (by omega) hlt] at hsum
      omega
    · rw [← Int.sub_bmod_right, Asset.bmod_eq_self (by omega) (by omega)] at hsum
      omega
  refine ⟨⟨⟨ha, ?_⟩, ha₀⟩, ⟨⟨hsym.trans ha, ?_⟩, hb₀⟩, hexact.2⟩ <;>
    rw [Asset.isAmountWithinRange_iff] <;> omega

theorem delegatebw_spec {ctx : Ctx} {s : State} {from_ receiver : AccountName} {n c : Asset}
    {transfer : Bool} {r : State × List Token.Inline} (hs : StakeRows s)
    (h : delegatebw env ctx s from_ receiver n c transfer = .ok r) :
    StakeAmount n ∧ StakeAmount c ∧ 0 < n.units + c.units ∧ (transfer → from_ ≠ receiver) ∧
      StakeChanged env ctx s r.1 from_ (if transfer then receiver else from_) receiver n c
        r.2 := by
  simp only [delegatebw, Rollback.bind_eq_ok, eosioAssert_eq_ok, exists_const, Asset.ge_eq_ok,
    Asset.gt_eq_ok] at h
  obtain ⟨_, ⟨hcsym, rfl⟩, hc₀, _, ⟨hnsym, rfl⟩, hn₀, both, hboth, _, ⟨-, rfl⟩, hpos, hself, h⟩ := h
  obtain ⟨hn, hc, hsum⟩ := stakeAmounts_of_sum hnsym (of_decide_eq_true hn₀)
    (of_decide_eq_true hc₀) hboth (of_decide_eq_true hpos)
  exact ⟨hn, hc, hsum, fun ht => hself.resolve_left (not_not.mpr ht),
    changebw_spec hs hn.toCoreAmount hc.toCoreAmount (.inl ⟨hn.nonneg, hc.nonneg⟩) h⟩

theorem undelegatebw_spec {ctx : Ctx} {s : State} {from_ receiver : AccountName} {n c : Asset}
    {r : State × List Token.Inline} (hs : StakeRows s)
    (h : undelegatebw env ctx s from_ receiver n c = .ok r) :
    StakeAmount n ∧ StakeAmount c ∧ 0 < n.units + c.units ∧
      minActivatedStake ≤ s.global.totalActivatedStake ∧
      StakeChanged env ctx s r.1 from_ from_ receiver n.neg c.neg r.2 := by
  simp only [undelegatebw, Rollback.bind_eq_ok, eosioAssert_eq_ok, exists_const, Asset.le_eq_ok,
    Asset.lt_eq_ok] at h
  obtain ⟨_, ⟨hcsym, rfl⟩, hc₀, _, ⟨hnsym, rfl⟩, hn₀, both, hboth, _, ⟨-, rfl⟩, hpos, hmin, h⟩ := h
  obtain ⟨hc, hn, hsum⟩ := stakeAmounts_of_sum hcsym.symm (of_decide_eq_true hc₀)
    (of_decide_eq_true hn₀) hboth (of_decide_eq_true hpos)
  have hneg : n.neg.units + c.neg.units < 0 := by
    rw [hn.units_neg, hc.units_neg]
    omega
  exact ⟨hn, hc, by omega, hmin,
    changebw_spec hs hn.toCoreAmount.neg hc.toCoreAmount.neg (.inr hneg) h⟩

theorem refund_spec {ctx : Ctx} {s : State} {owner : AccountName}
    {r : State × List Token.Inline} (hs : StakeRows s) (h : refund ctx s owner = .ok r) :
    ∃ req amount, s.refunds.find owner = some req ∧ StakeAmount amount ∧
      amount.units = req.netAmount.units + req.cpuAmount.units ∧
      r = ({ s with refunds := s.refunds.erase owner },
        [inlineTransfer stakeAccount req.owner amount "unstake"]) := by
  simp only [refund, Rollback.bind_eq_ok, getRow_eq_ok, requireAuth_eq_ok, eosioAssert_eq_ok,
    exists_const, Rollback.pure_eq_ok] at h
  obtain ⟨-, req, hreq, -, amount, hamount, rfl⟩ := h
  obtain ⟨hn, hc⟩ := hs.refunds _ _ hreq
  obtain ⟨hcore, hunits⟩ := hn.toCoreAmount.add hc.toCoreAmount hamount
  have hn₀ := hn.nonneg
  have hc₀ := hc.nonneg
  exact ⟨req, amount, hreq, ⟨hcore, by omega⟩, hunits, rfl⟩

end Xidata.System
