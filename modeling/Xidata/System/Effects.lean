import Xidata.System.Ram

/-!
The actions by what they do to the tables.  Two change a stake, one pays a
refund out, two buy RAM and one sells it, two vote, one resizes RAM; all others
are quiet.
-/

namespace Xidata.System

open Eosiolib

variable {env : Env} {ctx : Ctx} {token : Token.State} {s : State} {a : Action}
  {r : State × List Token.Inline}

/-- The two actions that change a stake, as a change by `source` in favour of
`receiver`. -/
inductive StakeAction : Action → AccountName → AccountName → Asset → Asset → Bool → Prop
  | delegate (from_ receiver : AccountName) (n c : Asset) (transfer : Bool) :
      StakeAction (.delegatebw from_ receiver n c transfer) from_ receiver n c transfer
  | undelegate (from_ receiver : AccountName) (n c : Asset) :
      StakeAction (.undelegatebw from_ receiver n c) from_ receiver n.neg c.neg false

theorem StakeAction.changed {source receiver : AccountName} {n c : Asset} {transfer : Bool}
    (ha : StakeAction a source receiver n c transfer) (hs : StakeRows s)
    (h : apply env ctx token s a = .ok r) :
    CoreAmount n ∧ CoreAmount c ∧
      StakeChanged env ctx s r.1 source (if transfer then receiver else source) receiver n c
        r.2 := by
  cases ha with
  | delegate =>
      obtain ⟨hn, hc, -, -, hchanged⟩ := delegatebw_spec hs h
      exact ⟨hn.toCoreAmount, hc.toCoreAmount, hchanged⟩
  | undelegate =>
      obtain ⟨hn, hc, -, -, hchanged⟩ := undelegatebw_spec hs h
      exact ⟨hn.toCoreAmount.neg, hc.toCoreAmount.neg, hchanged⟩

/-- The actions about producers that carry no vote. -/
def Action.isQuiet : Action → Bool
  | .rmvproducer .. | .regproducer .. | .unregprod .. | .claimrewards .. => true
  | _ => false

/-- An action that succeeded with `r`, by its effect. -/
inductive Effect (env : Env) (ctx : Ctx) (s : State) (r : State × List Token.Inline) :
    Action → Prop
  | stake {a : Action} {source receiver : AccountName} {n c : Asset} {transfer : Bool}
      (h : StakeAction a source receiver n c transfer) : Effect env ctx s r a
  | refund {owner : AccountName} (h : refund ctx s owner = .ok r) :
      Effect env ctx s r (.refund owner)
  | buyram {payer receiver : AccountName} {quant : Asset}
      (h : buyram env ctx s payer receiver quant = .ok r) :
      Effect env ctx s r (.buyram payer receiver quant)
  | buyrambytes {payer receiver : AccountName} {bytes : UInt32} {m : ExchangeState}
      {p : ExchangeState × Asset} (hm : s.rammarket = some m)
      (hp : m.convert env ⟨bytes.toUInt64.toInt64, ramSymbol⟩ coreSymbol = .ok p)
      (h : System.buyram env ctx s payer receiver p.2 = .ok r) :
      Effect env ctx s r (.buyrambytes payer receiver bytes)
  | sellram {account : AccountName} {bytes : Int64}
      (h : sellram env ctx s account bytes = .ok r) : Effect env ctx s r (.sellram account bytes)
  | setram {maxRamSize : UInt64} (h : setram ctx s maxRamSize = .ok r.1) (hr : r.2 = []) :
      Effect env ctx s r (.setram maxRamSize)
  | voteproducer {name proxy : AccountName} {producers : List AccountName}
      (h : voteproducer env ctx s name proxy producers = .ok r.1) (hr : r.2 = []) :
      Effect env ctx s r (.voteproducer name proxy producers)
  | regproxy {proxy : AccountName} {isproxy : Bool}
      (h : regproxy env ctx s proxy isproxy = .ok r.1) (hr : r.2 = []) :
      Effect env ctx s r (.regproxy proxy isproxy)
  | bidname {bidder newname : AccountName} {bid : Asset} (h : Quiet s r.1)
      (hr : bidname ctx s bidder newname bid = .ok r) :
      Effect env ctx s r (.bidname bidder newname bid)
  | onblock {timestamp : UInt32} {producer : AccountName} (h : Quiet s r.1)
      (hr : onblock env ctx s timestamp producer = .ok r.1) (hsent : r.2 = []) :
      Effect env ctx s r (.onblock timestamp producer)
  | quiet {a : Action} (ha : a.isQuiet) (h : Quiet s r.1) (hbids : r.1.namebids = s.namebids) :
      Effect env ctx s r a

theorem apply_effect (h : apply env ctx token s a = .ok r) : Effect env ctx s r a := by
  cases a with
  | delegatebw => exact .stake (.delegate ..)
  | undelegatebw => exact .stake (.undelegate ..)
  | refund => exact .refund h
  | buyram => exact .buyram h
  | buyrambytes =>
      obtain ⟨m, p, hm, hp, h⟩ := buyrambytes_cases h
      exact .buyrambytes hm hp h
  | sellram => exact .sellram h
  | bidname => exact .bidname (bidname_quiet h) h
  | claimrewards =>
      obtain ⟨hquiet, hbids⟩ := claimrewards_quiet h
      exact .quiet rfl hquiet hbids
  | setram =>
      obtain ⟨s', hs', rfl⟩ := Rollback.map_eq_ok.mp h
      exact .setram hs' rfl
  | voteproducer =>
      obtain ⟨s', hs', rfl⟩ := Rollback.map_eq_ok.mp h
      exact .voteproducer hs' rfl
  | regproxy =>
      obtain ⟨s', hs', rfl⟩ := Rollback.map_eq_ok.mp h
      exact .regproxy hs' rfl
  | onblock =>
      obtain ⟨s', hs', rfl⟩ := Rollback.map_eq_ok.mp h
      exact .onblock (onblock_quiet hs') hs' rfl
  | rmvproducer =>
      obtain ⟨s', hs', rfl⟩ := Rollback.map_eq_ok.mp h
      obtain ⟨hquiet, hbids⟩ := rmvproducer_quiet hs'
      exact .quiet rfl hquiet hbids
  | regproducer =>
      obtain ⟨s', hs', rfl⟩ := Rollback.map_eq_ok.mp h
      obtain ⟨hquiet, hbids⟩ := regproducer_quiet hs'
      exact .quiet rfl hquiet hbids
  | unregprod =>
      obtain ⟨s', hs', rfl⟩ := Rollback.map_eq_ok.mp h
      obtain ⟨hquiet, hbids⟩ := unregprod_quiet hs'
      exact .quiet rfl hquiet hbids

theorem newaccount_cases {s s' : State} {creator newact : AccountName}
    (h : newaccount s creator newact = .ok s') :
    ∃ namebids, claimName s creator newact = .ok namebids ∧ s.userres.find newact = none ∧
      s' = { s with
        namebids
        userres := s.userres.set newact { owner := newact }
        limits := s.limits.set newact ⟨0, 0, 0⟩ } := by
  simp only [newaccount, Rollback.bind_eq_ok, eosioAssert_eq_ok, exists_const,
    Rollback.pure_eq_ok] at h
  obtain ⟨namebids, hbids, hnone, rfl⟩ := h
  exact ⟨namebids, hbids, hnone, rfl⟩

/-! ### The rows of the stake tables -/

theorem StakeRows.of_same {s s' : State} (hs : StakeRows s) (hd : SameDelegations s s')
    (hr : SameResources s s') : StakeRows s' where
  delband := hd.delband ▸ hs.delband
  userres := hr.userres ▸ hs.userres
  refunds := hd.refunds ▸ hs.refunds

theorem StakeRows.of_booked {s s' : State} (hs : StakeRows s) (h : Booked s s') :
    StakeRows s' := by
  obtain ⟨m, reserved, stake, account, res, rfl, hnet, hcpu, -⟩ := h
  refine ⟨hs.delband, fun k row hrow => ?_, hs.refunds⟩
  rw [bookRam, OrderedTable.find_set] at hrow
  split at hrow
  · cases hrow
    rw [hnet, hcpu]
    cases hold : s.userres.find account with
    | none => exact ⟨.zero, .zero⟩
    | some old => exact hs.userres account old hold
  · exact hs.userres k row hrow

theorem StakeRows.apply (hs : StakeRows s) (h : apply env ctx token s a = .ok r) :
    StakeRows r.1 := by
  cases apply_effect h with
  | stake ha => exact (ha.changed hs h).2.2.rows
  | refund he =>
      obtain ⟨req, amount, hreq, -, -, rfl⟩ := refund_spec hs he
      refine ⟨hs.delband, hs.userres, fun k row hrow => ?_⟩
      rw [OrderedTable.find_erase] at hrow
      split at hrow
      · cases hrow
      · exact hs.refunds k row hrow
  | buyram he => exact hs.of_booked (buyram_booked he).1
  | buyrambytes _ _ he => exact hs.of_booked (buyram_booked he).1
  | sellram he => exact hs.of_booked (sellram_booked he).1
  | setram he =>
      obtain ⟨-, -, -, m, -, hr⟩ := setram_cases he
      rw [hr]
      exact ⟨hs.delband, hs.userres, hs.refunds⟩
  | voteproducer he =>
      have hframe := voteproducer_frame he
      exact hs.of_same hframe.toSameDelegations hframe.toSameResources
  | regproxy he =>
      have hframe := regproxy_frame he
      exact hs.of_same hframe.toSameDelegations hframe.toSameResources
  | bidname he => exact hs.of_same he.toSameDelegations he.toSameResources
  | onblock he => exact hs.of_same he.toSameDelegations he.toSameResources
  | quiet _ he => exact hs.of_same he.toSameDelegations he.toSameResources

theorem StakeRows.construct {s' : State} (hs : StakeRows s) (h : construct token s = .ok s') :
    StakeRows s' := by
  rcases construct_cases h with rfl | ⟨-, m, rfl, -⟩
  · exact hs
  · exact ⟨hs.delband, hs.userres, hs.refunds⟩

theorem StakeRows.exec {s s' : Chain} {e : Event} (hs : StakeRows s.system)
    (h : exec env s e = .ok s') : StakeRows s'.system := by
  rcases exec_cases h with ⟨action, token, -, -, rfl⟩ |
    ⟨creator, newact, accounts, sys, system, -, -, hsys, hsystem, rfl⟩ |
    ⟨action, sys, r, token, -, hsys, hr, -, rfl⟩
  · exact hs
  · obtain ⟨namebids, -, -, rfl⟩ := newaccount_cases hsystem
    have hsys := hs.construct hsys
    refine ⟨hsys.delband, fun k row hrow => ?_, hsys.refunds⟩
    rw [OrderedTable.find_set] at hrow
    split at hrow
    · cases hrow
      exact ⟨.zero, .zero⟩
    · exact hsys.userres k row hrow
  · exact (hs.construct hsys).apply hr

theorem stakeRows_init : StakeRows {} where
  delband _ _ h := by cases h
  userres _ _ h := by cases h
  refunds _ _ h := by cases h

/-! ### The constructor -/

/-- The chain once the constructor has run. -/
def Chain.constructed (s : Chain) : Chain :=
  match construct s.token s.system with
  | .ok system => { s with system }
  | .error _ => s

/-- Constructing twice is constructing once, so an action does on the
constructed chain what it does on the chain itself. -/
theorem exec_constructed {s : Chain} {e : Event} (h : ∀ action, e.call ≠ .token action) :
    exec env s.constructed e = exec env s e := by
  unfold Chain.constructed
  cases hsys : construct s.token s.system with
  | error f => rfl
  | ok sys =>
      have hagain : construct s.token sys = .ok sys := by
        rcases construct_cases hsys with rfl | ⟨-, m, rfl, -⟩
        · exact hsys
        · rfl
      unfold exec
      cases hcall : e.call with
      | token action => exact absurd hcall (h action)
      | newaccount creator newact => simp only [hsys, hagain, Event.ctx]
      | system action => simp only [hsys, hagain, Event.ctx]

/-! ### Votes -/

theorem construct_sameVotes {s s' : State} (h : construct token s = .ok s') :
    SameVotes s s' := by
  rcases construct_cases h with rfl | ⟨-, m, rfl, -⟩
  · exact .refl s'
  · exact ⟨rfl, fun _ => rfl, rfl, fun _ hp => hp, rfl, rfl, rfl, rfl⟩

theorem constructed_sameVotes (s : Chain) : SameVotes s.system s.constructed.system := by
  unfold Chain.constructed
  split
  · rename_i system h
    exact construct_sameVotes h
  · exact .refl _

theorem Booked.sameVotes {s s' : State} (h : Booked s s') : SameVotes s s' := by
  obtain ⟨m, reserved, stake, account, res, rfl, -⟩ := h
  exact (bookRam_frame ..).2.1

/-- The account whose stake an action changes. -/
def Action.staker : Action → Option AccountName
  | .delegatebw from_ receiver _ _ transfer => some (if transfer then receiver else from_)
  | .undelegatebw from_ _ _ _ => some from_
  | _ => none

/-- The account whose vote an action casts, perhaps again. -/
def Action.voter : Action → Option AccountName
  | .voteproducer voterName _ _ => some voterName
  | a => a.staker

def Call.staker : Call → Option AccountName
  | .system a => a.staker
  | _ => none

def Call.voter : Call → Option AccountName
  | .system a => a.voter
  | _ => none

theorem Call.voter_of_staker {call : Call} {a : AccountName} (h : call.staker = some a) :
    call.voter = some a := by
  cases call with
  | token | newaccount => exact h
  | system action => cases action <;> first | exact h | cases h

/-- What an action does to the votes. -/
inductive VoteEffect (env : Env) (ctx : Ctx) (call : Call) (s s' : State) : Prop
  | restake {from_ : AccountName} {n c : Asset} (hn : CoreAmount n) (hc : CoreAmount c)
      (hcall : call.staker = some from_) (h : changeVoterStake env ctx s from_ n c = .ok s') :
      VoteEffect env ctx call s s'
  | vote {name proxy : AccountName} {producers : List AccountName}
      (hcall : call.voter = some name) (h : voteproducer env ctx s name proxy producers = .ok s') :
      VoteEffect env ctx call s s'
  | register {proxy : AccountName} {isproxy : Bool}
      (h : regproxy env ctx s proxy isproxy = .ok s') : VoteEffect env ctx call s s'
  | same (h : SameVotes s s') : VoteEffect env ctx call s s'

theorem StakeChanged.votes {s s' : State} {source from_ receiver : AccountName} {n c : Asset}
    {sent : List Token.Inline} {call : Call} (hn : CoreAmount n) (hc : CoreAmount c)
    (hcall : call.staker = some from_)
    (h : StakeChanged env ctx s s' source from_ receiver n c sent) :
    ∃ m, SameVotes s m ∧ VoteEffect env ctx call m s' := by
  refine ⟨_, ?_, .restake hn hc hcall h.voter⟩
  exact ⟨rfl, fun _ => rfl, rfl, fun _ hp => hp, rfl, rfl, rfl, rfl⟩

theorem apply_votes (hs : StakeRows s) (h : apply env ctx token s a = .ok r) :
    ∃ m, SameVotes s m ∧ VoteEffect env ctx (.system a) m r.1 := by
  cases apply_effect h with
  | stake ha =>
      obtain ⟨hn, hc, hchanged⟩ := ha.changed hs h
      exact hchanged.votes hn hc (by cases ha <;> rfl)
  | refund he =>
      obtain ⟨req, amount, -, -, -, rfl⟩ := refund_spec hs he
      exact ⟨s, .refl s, .same ⟨rfl, fun _ => rfl, rfl, fun _ hp => hp, rfl, rfl, rfl, rfl⟩⟩
  | buyram he => exact ⟨s, .refl s, .same (buyram_booked he).1.sameVotes⟩
  | buyrambytes _ _ he => exact ⟨s, .refl s, .same (buyram_booked he).1.sameVotes⟩
  | sellram he => exact ⟨s, .refl s, .same (sellram_booked he).1.sameVotes⟩
  | setram he =>
      obtain ⟨-, -, -, m, -, hr⟩ := setram_cases he
      exact ⟨s, .refl s, .same (hr ▸
        ⟨rfl, fun _ => rfl, rfl, fun _ hp => hp, rfl, rfl, rfl, rfl⟩)⟩
  | voteproducer he => exact ⟨s, .refl s, .vote rfl he⟩
  | regproxy he => exact ⟨s, .refl s, .register he⟩
  | bidname he => exact ⟨s, .refl s, .same he.toSameVotes⟩
  | onblock he => exact ⟨s, .refl s, .same he.toSameVotes⟩
  | quiet _ he => exact ⟨s, .refl s, .same he.toSameVotes⟩

theorem exec_votes {s s' : Chain} {e : Event} (hs : StakeRows s.system)
    (h : exec env s e = .ok s') :
    ∃ sys, SameVotes s.system sys ∧ VoteEffect env (e.ctx s) e.call sys s'.system := by
  rcases exec_cases h with ⟨action, token, -, -, rfl⟩ |
    ⟨creator, newact, accounts, sys, system, -, -, hsys, hsystem, rfl⟩ |
    ⟨action, sys, r, token, hcall, hsys, hr, -, rfl⟩
  · exact ⟨_, .refl _, .same (.refl _)⟩
  · obtain ⟨namebids, -, -, rfl⟩ := newaccount_cases hsystem
    exact ⟨sys, construct_sameVotes hsys,
      .same ⟨rfl, fun _ => rfl, rfl, fun _ hp => hp, rfl, rfl, rfl, rfl⟩⟩
  · obtain ⟨m, hm, heffect⟩ := apply_votes (hs.construct hsys) hr
    exact ⟨m, (construct_sameVotes hsys).trans hm, hcall ▸ heffect⟩

end Xidata.System
