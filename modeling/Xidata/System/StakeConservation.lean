import Mathlib.Tactic.Ring
import Xidata.System.Effects

/-!
Conservation of stake.  The coins of `eosio.stake` are, coin for coin, what is
delegated and what waits to be refunded: whatever a change of stake adds to the
delegations is taken from the pending refund or transferred in, and whatever a
refund gives up is transferred out.
-/

namespace Xidata.System

open Eosiolib

variable {env : Env}

/-! ### The law -/

/-- What is delegated, over all pairs of accounts. -/
def State.delegated (s : State) : ℤ :=
  s.delband.sum fun _ r => r.netWeight.units + r.cpuWeight.units

/-- What waits to be refunded, over all accounts. -/
def State.refunding (s : State) : ℤ :=
  s.refunds.sum fun _ r => r.netAmount.units + r.cpuAmount.units

def Chain.coins (s : Chain) (owner : AccountName) : ℤ :=
  s.token.balance owner coreSymbol.name

/-- The balance of `eosio.stake` is what is delegated and what is being refunded. -/
def StakeBacked (s : Chain) : Prop :=
  s.coins stakeAccount = s.system.delegated + s.system.refunding

/-- `delegatebw`, `undelegatebw` and `refund`. -/
def Call.isStakeAction : Call → Bool
  | .system (.delegatebw ..) | .system (.undelegatebw ..) | .system (.refund ..) => true
  | _ => false

/-- The account that pays for a change of stake. -/
def Call.payer : Call → Option AccountName
  | .system (.delegatebw from_ ..) | .system (.undelegatebw from_ ..) => some from_
  | _ => none

/-- The condition on a step: the paying account of a change of stake is not
`eosio.stake`, and no other call touches the coins of `eosio.stake`. -/
def StakeStep (s : Chain) (e : Event) (s' : Chain) : Prop :=
  if e.call.isStakeAction then e.call.payer ≠ some stakeAccount
  else s'.coins stakeAccount = s.coins stakeAccount

instance (s : Chain) (e : Event) (s' : Chain) : Decidable (StakeStep s e s') :=
  inferInstanceAs (Decidable (if e.call.isStakeAction then e.call.payer ≠ some stakeAccount
    else s'.coins stakeAccount = s.coins stakeAccount))

/-- The invariant that carries the law along a run. -/
structure StakeInvariant (s : Chain) : Prop where
  token : Token.Conserved s.token
  rows : StakeRows s.system
  backed : StakeBacked s

/-! ### What is sent -/

theorem StakeAmount.symbol_name {a : Asset} (ha : StakeAmount a) :
    a.symbol.name = coreSymbol.name := by rw [ha.symbol]

/-- What a payer other than `eosio.stake` sends it arrives there. -/
theorem flow_to_stake {source : AccountName} {amount : Asset} {memo : String}
    (hamount : StakeAmount amount) (hsource : source ≠ stakeAccount) :
    flow stakeAccount coreSymbol.name (inlineTransfer source stakeAccount amount memo) =
      amount.units := by
  rw [flow_inlineTransfer, hamount.symbol_name, if_neg fun h => hsource h.1.symm,
    if_pos ⟨rfl, rfl⟩, zero_add]

theorem flow_from_stake {to_ : AccountName} {amount : Asset} {memo : String}
    (hamount : StakeAmount amount) (hto : stakeAccount ≠ to_) :
    flow stakeAccount coreSymbol.name (inlineTransfer stakeAccount to_ amount memo) =
      -amount.units := by
  rw [flow_inlineTransfer, hamount.symbol_name, if_pos ⟨rfl, rfl⟩, if_neg fun h => hto h.1,
    add_zero]

/-- What a change of stake sends: transfers only, worth what the refund has
not covered. -/
theorem RefundStep.sent_flow {t t' : OrderedTable AccountName RefundRequest}
    {source from_ : AccountName} {n c : Asset} {sent : List Token.Inline}
    (h : RefundStep t t' source from_ n c sent)
    (hsource : source ≠ stakeAccount) :
    (∀ i ∈ sent, IsTransfer i) ∧
      (t'.sum fun _ r => r.netAmount.units + r.cpuAmount.units) =
        (t.sum fun _ r => r.netAmount.units + r.cpuAmount.units) +
          ((sent.map (flow stakeAccount coreSymbol.name)).sum - (n.units + c.units)) := by
  obtain ⟨amount, hamount, ⟨x, y, hadj, hunits⟩, hsent⟩ := h.paid
  have hsum := hadj.sum (f := fun _ u => u.1 + u.2) fun _ u v => by
    rw [Prod.fst_add, Prod.snd_add]
    ring
  have hflow : (sent.map (flow stakeAccount coreSymbol.name)).sum = amount.units := by
    rw [hsent]
    split
    · rw [List.map_singleton, List.sum_singleton, flow_to_stake hamount hsource]
    · have hnonneg := hamount.nonneg
      rw [List.map_nil, List.sum_nil]
      omega
  refine ⟨fun i hi => ?_, ?_⟩
  · rw [hsent] at hi
    split at hi
    · rw [List.mem_singleton] at hi
      exact hi ▸ isTransfer_inlineTransfer ..
    · cases hi
  · rw [hflow]
    refine hsum.trans ?_
    simp only
    rw [hunits]
    congr 1
    ring

/-! ### The steps -/

theorem SameDelegations.totals {s s' : State} (h : SameDelegations s s') :
    s'.delegated = s.delegated ∧ s'.refunding = s.refunding := by
  rw [State.delegated, State.refunding, h.delband, h.refunds]
  exact ⟨rfl, rfl⟩

theorem construct_delegations {token : Token.State} {s s' : State}
    (h : construct token s = .ok s') : SameDelegations s s' := by
  rcases construct_cases h with rfl | ⟨-, m, rfl, -⟩ <;> exact ⟨rfl, rfl, rfl⟩

/-- A change of stake keeps the law, and what it sends settles. -/
theorem StakeAction.backed {s : Chain} {ctx : Ctx} {a : Action} {source receiver : AccountName}
    {n c : Asset} {transfer : Bool} {sys : State} {r : State × List Token.Inline}
    {token : Token.State} (ha : StakeAction a source receiver n c transfer)
    (hsource : source ≠ stakeAccount) (ht : Token.Conserved s.token) (hs : StakeRows sys)
    (h : apply env ctx s.token sys a = .ok r)
    (hsettle : r.2.foldlM (execInline ctx) s.token = .ok token) :
    Settled s.token token r.2 ∧
      token.balance stakeAccount coreSymbol.name - (r.1.delegated + r.1.refunding) =
        s.coins stakeAccount - (sys.delegated + sys.refunding) := by
  obtain ⟨-, -, hchanged⟩ := ha.changed hs h
  obtain ⟨htransfers, hrefunds⟩ := (hchanged.refund hsource).sent_flow hsource
  have hdelband := hchanged.delband.sum (f := fun _ u => u.1 + u.2) fun _ u v => by
    rw [Prod.fst_add, Prod.snd_add]
    ring
  have hsettled := settled_of_ok ht htransfers hsettle
  refine ⟨hsettled, ?_⟩
  have hdelegated : r.1.delegated = sys.delegated + (n.units + c.units) := hdelband
  have hrefunding : r.1.refunding = sys.refunding +
      ((r.2.map (flow stakeAccount coreSymbol.name)).sum - (n.units + c.units)) := hrefunds
  rw [hsettled.balance, hdelegated, hrefunding]
  simp only [Chain.coins]
  ring

/-- A refund that went through was paid out of what `eosio.stake` held for it. -/
theorem refund_backed {s : Chain} {ctx : Ctx} {owner : AccountName} {sys : State}
    {r : State × List Token.Inline} {token : Token.State} (ht : Token.Conserved s.token)
    (hs : StakeRows sys) (h : refund ctx sys owner = .ok r)
    (hsettle : r.2.foldlM (execInline ctx) s.token = .ok token) :
    Settled s.token token r.2 ∧
      token.balance stakeAccount coreSymbol.name - (r.1.delegated + r.1.refunding) =
        s.coins stakeAccount - (sys.delegated + sys.refunding) := by
  obtain ⟨req, amount, hreq, hamount, hunits, rfl⟩ := refund_spec hs h
  have hto : stakeAccount ≠ req.owner := by
    rw [List.foldlM_cons, Rollback.bind_eq_ok] at hsettle
    obtain ⟨m, hm, -⟩ := hsettle
    exact ne_of_execInline ht hm
  have hsettled := settled_of_ok ht (fun i hi => by
    rw [List.mem_singleton] at hi
    exact hi ▸ isTransfer_inlineTransfer ..) hsettle
  have herase := sys.refunds.sum_erase_sub owner
    fun _ r => r.netAmount.units + r.cpuAmount.units
  rw [hreq, Option.elim_some] at herase
  refine ⟨hsettled, ?_⟩
  rw [hsettled.balance, List.map_singleton, List.sum_singleton, flow_from_stake hamount hto]
  simp only [State.delegated, State.refunding, Chain.coins, herase, hunits]
  ring

/-- A stake action that went through: the law is kept, and the tokens it moved
were neither made nor lost. -/
theorem StakeInvariant.stakeAction {s s' : Chain} {e : Event} (hs : StakeInvariant s)
    (hstake : e.call.isStakeAction) (hpayer : e.call.payer ≠ some stakeAccount)
    (h : exec env s e = .ok s') :
    StakeBacked s' ∧ s'.token.stat = s.token.stat ∧ ∀ sym, s'.token.held sym = s.token.held sym := by
  rcases exec_cases h with ⟨action, _, hcall, -, -⟩ | ⟨_, _, _, _, _, hcall, -⟩ |
    ⟨action, sys, r, token, hcall, hsys, hr, hsettle, rfl⟩
  · rw [hcall] at hstake
    cases hstake
  · rw [hcall] at hstake
    cases hstake
  · obtain ⟨hdelegated, hrefunding⟩ := (construct_delegations hsys).totals
    have hbacked := hs.backed
    have hrows := hs.rows.construct hsys
    have hmoved : Settled s.token token r.2 ∧
        token.balance stakeAccount coreSymbol.name - (r.1.delegated + r.1.refunding) =
          s.coins stakeAccount - (sys.delegated + sys.refunding) := by
      rw [hcall] at hstake hpayer
      cases action with
      | delegatebw from_ =>
          have hne : from_ ≠ stakeAccount := fun he => hpayer (congrArg some he)
          exact StakeAction.backed (.delegate ..) hne hs.token hrows hr hsettle
      | undelegatebw from_ =>
          have hne : from_ ≠ stakeAccount := fun he => hpayer (congrArg some he)
          exact StakeAction.backed (.undelegate ..) hne hs.token hrows hr hsettle
      | refund => exact refund_backed hs.token hrows hr hsettle
      | _ => cases hstake
    obtain ⟨hsettled, hlaw⟩ := hmoved
    refine ⟨?_, hsettled.stat, hsettled.held⟩
    simp only [StakeBacked, Chain.coins] at hbacked hlaw ⊢
    omega

/-- Any other call leaves the delegations and the refunds as they are. -/
theorem exec_delegations {s s' : Chain} {e : Event} (hstake : ¬ e.call.isStakeAction)
    (h : exec env s e = .ok s') :
    s'.system.delegated = s.system.delegated ∧ s'.system.refunding = s.system.refunding := by
  rcases exec_cases h with ⟨action, _, -, -, rfl⟩ | ⟨_, _, _, sys, _, -, -, hsys, hnew, rfl⟩ |
    ⟨action, sys, r, token, hcall, hsys, hr, -, rfl⟩
  · exact ⟨rfl, rfl⟩
  · obtain ⟨namebids, -, -, rfl⟩ := newaccount_cases hnew
    exact (construct_delegations hsys).totals
  · have hsame : SameDelegations sys r.1 := by
      rw [hcall] at hstake
      cases apply_effect hr with
      | stake ha => cases ha <;> exact absurd rfl hstake
      | refund => exact absurd rfl hstake
      | buyram he =>
          obtain ⟨⟨_, _, _, _, _, hb, -⟩, -⟩ := buyram_booked he
          exact hb ▸ (bookRam_frame ..).1
      | buyrambytes _ _ he =>
          obtain ⟨⟨_, _, _, _, _, hb, -⟩, -⟩ := buyram_booked he
          exact hb ▸ (bookRam_frame ..).1
      | sellram he =>
          obtain ⟨⟨_, _, _, _, _, hb, -⟩, -⟩ := sellram_booked he
          exact hb ▸ (bookRam_frame ..).1
      | setram he =>
          obtain ⟨-, -, -, m, -, hb⟩ := setram_cases he
          exact hb ▸ ⟨rfl, rfl, rfl⟩
      | voteproducer he => exact (voteproducer_frame he).toSameDelegations
      | regproxy he => exact (regproxy_frame he).toSameDelegations
      | bidname he => exact he.toSameDelegations
      | onblock he => exact he.toSameDelegations
      | quiet _ he => exact he.toSameDelegations
    obtain ⟨hdelegated, hrefunding⟩ := (construct_delegations hsys).totals
    obtain ⟨hdelegated', hrefunding'⟩ := hsame.totals
    exact ⟨hdelegated'.trans hdelegated, hrefunding'.trans hrefunding⟩

theorem StakeInvariant.step {s s' : Chain} {e : Event} (hs : StakeInvariant s)
    (h : exec env s e = .ok s') (hstep : StakeStep s e s') : StakeInvariant s' := by
  refine ⟨exec_tokenConserved hs.token h, hs.rows.exec h, ?_⟩
  unfold StakeStep at hstep
  split at hstep
  · rename_i hstake
    exact (hs.stakeAction hstake hstep h).1
  · rename_i hstake
    obtain ⟨hdelegated, hrefunding⟩ := exec_delegations hstake h
    have hbacked := hs.backed
    simp only [StakeBacked] at hbacked ⊢
    omega

theorem stakeInvariant_init : StakeInvariant {} :=
  ⟨Token.conserved_init, stakeRows_init, rfl⟩

/-! ### Refunds -/

/-- One refund is never more than all there is to refund and delegate. -/
theorem refund_covered {s : State} (hs : StakeRows s) {owner : AccountName} {req : RefundRequest}
    (h : s.refunds.find owner = some req) :
    req.netAmount.units + req.cpuAmount.units ≤ s.delegated + s.refunding := by
  have hdelegated : 0 ≤ s.delegated := OrderedTable.sum_nonneg fun k r hr =>
    add_nonneg (hs.delband k r hr).1.nonneg (hs.delband k r hr).2.nonneg
  have hrefund : req.netAmount.units + req.cpuAmount.units ≤ s.refunding :=
    OrderedTable.le_sum (t := s.refunds) (f := fun _ r => r.netAmount.units + r.cpuAmount.units)
      (fun k r hr => add_nonneg (hs.refunds k r hr).1.nonneg (hs.refunds k r hr).2.nonneg) h
  omega

theorem refund_avoids {ctx : Ctx} {s : State} {owner : AccountName} :
    Rollback.Avoids (fun f => f.site? = some .subBalance) (refund ctx s owner) := by
  unfold refund
  refine (avoids_requireAuth (by simp [Failure.site?])).bind fun _ _ => ?_
  refine (avoids_getRow fun _ => by simp [Failure.site?]).bind fun req _ => ?_
  refine (avoids_eosioAssert fun _ => by simp [Failure.site?]).bind fun _ _ => ?_
  exact (Asset.avoids_add _ _ fun _ => by simp [Failure.site?]).bind fun _ _ =>
    Rollback.avoids_pure _

theorem construct_avoids {token : Token.State} {s : State} {site : Site} (h : site ≠ .multiIndex) :
    Rollback.Avoids (fun f => f.site? = some site) (construct token s) := by
  unfold construct
  split
  · exact Rollback.avoids_pure _
  · refine Rollback.Avoids.bind ?_ fun supply _ => ?_
    · refine (avoids_getRow fun _ => ?_).bind fun _ _ => Rollback.avoids_pure _
      exact fun he => h (Option.some.inj he).symm
    · split <;> exact Rollback.avoids_pure _

theorem StakeInvariant.refund_not_overdrawn {s : Chain} (hs : StakeInvariant s)
    (auth : List AccountName) (time : UInt64) (owner : AccountName) :
    Rollback.Avoids (fun f => f.site? = some .subBalance)
      (exec env s ⟨auth, time, .system (.refund owner)⟩) := by
  simp only [exec]
  refine (construct_avoids (by decide)).bind fun sys hsys => ?_
  refine Rollback.Avoids.bind refund_avoids fun r hr => ?_
  refine Rollback.Avoids.bind ?_ fun _ _ => Rollback.avoids_pure _
  have hrows := hs.rows.construct hsys
  obtain ⟨req, amount, hreq, hamount, hunits, rfl⟩ := refund_spec hrows hr
  obtain ⟨hdelegated, hrefunding⟩ := (construct_delegations hsys).totals
  have hcovered := refund_covered hrows hreq
  have hbacked := hs.backed
  simp only [StakeBacked, Chain.coins] at hbacked
  rw [List.foldlM_cons]
  refine (settle_not_overdrawn ?_).bind fun _ _ => Rollback.avoids_pure _
  rw [hamount.symbol_name]
  omega

/-- After every run in which no change of stake is paid by `eosio.stake` and
nothing else touches its coins, they are what is delegated and what is being
refunded.  A stake action then makes and loses no token, and no refund fails
for want of balance. -/
theorem stake_conservation (env : Env) (es : List Event)
    (h : Rollback.Along (exec env) StakeStep {} es) :
    StakeBacked (run env {} es) ∧
      (∀ e s', e.call.isStakeAction → e.call.payer ≠ some stakeAccount →
        exec env (run env {} es) e = .ok s' →
        s'.token.stat = (run env {} es).token.stat ∧
          ∀ sym, s'.token.held sym = (run env {} es).token.held sym) ∧
      (∀ auth time owner f,
        exec env (run env {} es) ⟨auth, time, .system (.refund owner)⟩ = .error f →
        f.site? ≠ some .subBalance) := by
  have hinv : StakeInvariant (run env {} es) := Rollback.run_induction_along
    (fun _ _ _ hs hok hstep => hs.step hok hstep) h stakeInvariant_init
  exact ⟨hinv.backed, fun e s' hstake hpayer hok => (hinv.stakeAction hstake hpayer hok).2,
    fun auth time owner f hf => hinv.refund_not_overdrawn auth time owner f hf⟩

theorem stake_conservation_delegation :
    let es := genesis [stakeAccount, N "alice"] (N "alice") ++
      [⟨[N "alice"], 0, .system (.delegatebw (N "alice") (N "alice") (core 5) (core 7) false)⟩]
    Rollback.Along (exec .flat) StakeStep {} es ∧ StakeBacked (run .flat {} es) ∧
      (run .flat {} es).coins stakeAccount = 12 :=
  ⟨by decide +kernel, (stake_conservation .flat _ (by decide +kernel)).1, by decide +kernel⟩

end Xidata.System
