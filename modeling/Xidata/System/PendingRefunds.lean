import Xidata.System.StakeConservation

/-!
Pending refunds and the deferred transactions that pay them out.  A change of
stake that updates a refund schedules it again; one that does not look at the
refund cancels the transaction all the same.
-/

namespace Xidata.System

open Eosiolib

variable {env : Env}

/-- The deferred transaction that calls `refund` for `a` is pending. -/
def Scheduled (s : State) (a : AccountName) : Prop :=
  (s.deferred.find a).map DeferredRefund.owner = some a

instance (s : State) (a : AccountName) : Decidable (Scheduled s a) :=
  inferInstanceAs (Decidable (_ = _))

/-- Exactly the accounts with a refund have it scheduled. -/
def RefundsScheduled (s : State) : Prop := ∀ a, (s.refunds.find a).isSome ↔ Scheduled s a

/-- It is enough to look at the rows of the two tables. -/
theorem refundsScheduled_iff {s : State} :
    RefundsScheduled s ↔ (∀ a ∈ s.refunds.keys, Scheduled s a) ∧
      ∀ a ∈ s.deferred.keys, Scheduled s a → (s.refunds.find a).isSome := by
  refine ⟨fun h => ⟨fun a ha => ?_, fun a _ hsched => (h a).mpr hsched⟩, fun h a => ⟨fun ha => ?_,
    fun hsched => ?_⟩⟩
  · obtain ⟨r, hr⟩ := OrderedTable.mem_keys.mp ha
    exact (h a).mp (hr ▸ rfl)
  · exact h.1 a (OrderedTable.mem_keys.mpr (Option.isSome_iff_exists.mp ha))
  · obtain ⟨d, hd, -⟩ := Option.map_eq_some_iff.mp hsched
    exact h.2 a (OrderedTable.mem_keys.mpr ⟨d, hd⟩) hsched

-- the rows are looked through, not all the names there are
instance (s : State) : Decidable (RefundsScheduled s) :=
  @decidable_of_iff _ _ refundsScheduled_iff.symm
    (@instDecidableAnd _ _ (List.decidableBAll ..) (List.decidableBAll ..))

/-! ### One change of stake -/

/-- An updated refund asks for a deferred transaction exactly when a row is
left, and no other row is touched. -/
theorem updateRefund_need {c : Ctx} {t : OrderedTable AccountName RefundRequest}
    {from_ : AccountName} {n u : Asset}
    {r : OrderedTable AccountName RefundRequest × Bool × Asset × Asset}
    (h : updateRefund c t from_ n u = .ok r) :
    r.2.1 = (r.1.find from_).isSome ∧ ∀ a, a ≠ from_ → r.1.find a = t.find a := by
  simp only [updateRefund, Rollback.bind_eq_ok] at h
  obtain ⟨netBelow, -, cpuBelow, -, h⟩ := h
  split at h
  · simp only [Rollback.bind_eq_ok] at h
    obtain ⟨_, -, _, -, _, -, _, -, _, -, _, -, _, -, _, -, h⟩ := h
    split at h <;> cases h
    · exact ⟨by rw [OrderedTable.find_erase_self]; rfl,
        fun a ha => OrderedTable.find_erase_of_ne _ ha⟩
    · exact ⟨by rw [OrderedTable.find_set_self]; rfl,
        fun a ha => OrderedTable.find_set_of_ne _ ha _⟩
  · rename_i hnone
    split at h <;> cases h
    · exact ⟨by rw [OrderedTable.find_set_self]; rfl,
        fun a ha => OrderedTable.find_set_of_ne _ ha _⟩
    · exact ⟨by rw [hnone]; rfl, fun _ _ => rfl⟩

/-- The change of stake looks at the refund of `from_`. -/
def LooksAtRefund (from_ receiver : AccountName) (n c : Asset) (transfer : Bool) : Prop :=
  ¬ transfer ∧ from_ = receiver ∨ n.amount + c.amount < 0

theorem changeRefund_schedule {ctx : Ctx} {s : State} {source from_ receiver : AccountName}
    {n c : Asset} {transfer : Bool} {r : State × List Token.Inline}
    (h : changeRefund ctx s source from_ receiver n c transfer = .ok r)
    (hs : RefundsScheduled s) :
    RefundsScheduled r.1 ↔
      (LooksAtRefund from_ receiver n c transfer ∨ s.refunds.find from_ = none) := by
  simp only [changeRefund, Rollback.bind_eq_ok, Rollback.pure_eq_ok] at h
  obtain ⟨u, hu, amount, -, positive, -, rfl⟩ := h
  split at hu
  · rename_i hlook
    obtain ⟨hneed, hother⟩ := updateRefund_need hu
    refine iff_of_true (fun a => ?_) (.inl hlook)
    by_cases ha : a = from_
    · subst ha
      cases hsome : u.2.1 with
      | true => simp [Scheduled, ← hneed, hsome]
      | false => simp [Scheduled, ← hneed, hsome]
    · have hdeferred : (if u.2.1 = true then s.deferred.set from_ ⟨from_, refundDelay⟩
          else s.deferred.erase from_).find a = s.deferred.find a := by
        split
        · exact OrderedTable.find_set_of_ne _ ha _
        · exact OrderedTable.find_erase_of_ne _ ha
      simp only [Scheduled, hother a ha, hdeferred]
      exact hs a
  · rename_i hlook
    cases hu
    simp only [LooksAtRefund, hlook, false_or]
    refine ⟨fun h => ?_, fun hnone a => ?_⟩
    · have hgone := h from_
      simp only [Scheduled, Bool.false_eq_true, if_false, OrderedTable.find_erase_self,
        Option.map_none, reduceCtorEq, iff_false] at hgone
      exact Option.not_isSome_iff_eq_none.mp hgone
    · by_cases ha : a = from_
      · subst ha
        simp [Scheduled, hnone]
      · simp only [Scheduled, Bool.false_eq_true, if_false, OrderedTable.find_erase_of_ne _ ha]
        exact hs a

theorem refundsScheduled_congr {s s' : State} (hrefunds : s'.refunds = s.refunds)
    (hdeferred : s'.deferred = s.deferred) : RefundsScheduled s' ↔ RefundsScheduled s := by
  simp only [RefundsScheduled, Scheduled, hrefunds, hdeferred]

/-- A change of stake keeps the schedule exactly when the payer is
`eosio.stake`, or the refund of the account charged is looked at, or there is
none. -/
theorem changebw_schedule {ctx : Ctx} {s : State} {source receiver : AccountName} {n c : Asset}
    {transfer : Bool} {r : State × List Token.Inline}
    (h : changebw env ctx s source receiver n c transfer = .ok r) (hs : RefundsScheduled s) :
    RefundsScheduled r.1 ↔ source = stakeAccount ∨
      LooksAtRefund (if transfer then receiver else source) receiver n c transfer ∨
      s.refunds.find (if transfer then receiver else source) = none := by
  obtain ⟨delband, totals, m, -, -, -, hm, hvoter, -⟩ := changebw_cases h
  have hframe := changeVoterStake_frame hvoter
  rw [refundsScheduled_congr hframe.refunds hframe.deferred]
  split at hm
  · rename_i hsource
    rw [or_iff_right fun he : source = stakeAccount => hsource he.symm]
    have hstep := changeRefund_schedule hm (by exact hs)
    exact hstep
  · rename_i hsource
    cases hm
    exact iff_of_true hs (.inl (not_not.mp hsource).symm)

/-! ### The actions -/

/-- `delegatebw` and `undelegatebw`. -/
def Action.isStakeChange : Action → Bool
  | .delegatebw .. | .undelegatebw .. => true
  | _ => false

/-- A delegation that is not to oneself, charged to an account with a pending
refund. -/
def CancelsRefund (s : State) : Action → Prop
  | .delegatebw from_ receiver _ _ transfer =>
      from_ ≠ stakeAccount ∧ (transfer ∨ from_ ≠ receiver) ∧
        (s.refunds.find (if transfer then receiver else from_)).isSome
  | _ => False

/-- Only an undelegation takes more than it gives. -/
theorem delegatebw_looks {ctx : Ctx} {s : State} {from_ receiver : AccountName} {n c : Asset}
    {transfer : Bool} {r : State × List Token.Inline}
    (h : delegatebw env ctx s from_ receiver n c transfer = .ok r) :
    changebw env ctx s from_ receiver n c transfer = .ok r ∧
      (LooksAtRefund (if transfer then receiver else from_) receiver n c transfer ↔
        ¬ (transfer ∨ from_ ≠ receiver)) := by
  simp only [delegatebw, Rollback.bind_eq_ok, eosioAssert_eq_ok, exists_const, Asset.ge_eq_ok,
    Asset.gt_eq_ok] at h
  obtain ⟨_, ⟨hcsym, rfl⟩, hc₀, _, ⟨hnsym, rfl⟩, hn₀, both, hboth, _, ⟨-, rfl⟩, hpos, -, h⟩ := h
  obtain ⟨hn, hc, hsum⟩ := stakeAmounts_of_sum hnsym (of_decide_eq_true hn₀)
    (of_decide_eq_true hc₀) hboth (of_decide_eq_true hpos)
  have hadd := hn.toCoreAmount.amount_add hc.toCoreAmount
  have hpos : ¬ n.amount + c.amount < 0 := fun hlt => by
    have hlt' : (n.amount + c.amount).toInt < 0 := Int64.lt_iff_toInt_lt.mp hlt
    omega
  refine ⟨h, ?_⟩
  rw [LooksAtRefund, or_iff_left hpos]
  cases transfer <;> simp

theorem undelegatebw_looks {ctx : Ctx} {s : State} {from_ receiver : AccountName} {n c : Asset}
    {r : State × List Token.Inline} (h : undelegatebw env ctx s from_ receiver n c = .ok r) :
    changebw env ctx s from_ receiver n.neg c.neg false = .ok r ∧
      LooksAtRefund from_ receiver n.neg c.neg false := by
  simp only [undelegatebw, Rollback.bind_eq_ok, eosioAssert_eq_ok, exists_const, Asset.le_eq_ok,
    Asset.lt_eq_ok] at h
  obtain ⟨_, ⟨hcsym, rfl⟩, hc₀, _, ⟨hnsym, rfl⟩, hn₀, both, hboth, _, ⟨-, rfl⟩, hpos, -, h⟩ := h
  obtain ⟨hc, hn, hsum⟩ := stakeAmounts_of_sum hcsym.symm (of_decide_eq_true hc₀)
    (of_decide_eq_true hn₀) hboth (of_decide_eq_true hpos)
  have hadd := hn.toCoreAmount.neg.amount_add hc.toCoreAmount.neg
  rw [hn.toCoreAmount.units_neg, hc.toCoreAmount.units_neg] at hadd
  exact ⟨h, .inr (Int64.lt_iff_toInt_lt.mpr (show _ < (0 : ℤ) by omega))⟩

/-- From a state in which exactly the accounts with a refund have it scheduled,
a change of stake leads to such a state again if and only if it does not cancel
a pending refund. -/
theorem refundsScheduled_iff_not_cancelsRefund {s s' : Chain} {auth : List AccountName}
    {time : UInt64} {a : Action} (ha : a.isStakeChange) (hs : RefundsScheduled s.system)
    (h : exec env s ⟨auth, time, .system a⟩ = .ok s') :
    RefundsScheduled s'.system ↔ ¬ CancelsRefund s.system a := by
  simp only [exec, Rollback.bind_eq_ok, Rollback.pure_eq_ok] at h
  obtain ⟨sys, hsys, r, hr, token, -, rfl⟩ := h
  obtain ⟨-, hrefunds, hdeferred⟩ := construct_delegations hsys
  have hs' : RefundsScheduled sys := (refundsScheduled_congr hrefunds hdeferred).mpr hs
  cases a with
  | delegatebw from_ receiver n c transfer =>
      obtain ⟨hchange, hlooks⟩ := delegatebw_looks hr
      rw [changebw_schedule hchange hs', hlooks, hrefunds]
      simp only [CancelsRefund, Option.isSome_iff_ne_none]
      tauto
  | undelegatebw from_ receiver n c =>
      obtain ⟨hchange, hlooks⟩ := undelegatebw_looks hr
      rw [changebw_schedule hchange hs']
      exact iff_of_true (.inr (.inl hlooks)) id
  | _ => cases ha

/-- Alice has staked two parts, voted, and taken a little of one part back. -/
def aliceRefunding : List Event :=
  genesis [stakeAccount, N "alice", N "bob"] (N "alice") ++
    [⟨[N "alice"], 0, .system (.delegatebw (N "alice") (N "alice") (core 1000000000000)
        (core 1000000000000) false)⟩,
      ⟨[N "alice"], 0, .system (.voteproducer (N "alice") 0 [])⟩,
      ⟨[N "alice"], 0, .system (.undelegatebw (N "alice") (N "alice") (core 10) (core 0))⟩]

/-- Taking back more keeps the refund scheduled. -/
theorem refundsScheduled_undelegated :
    ∃ s', exec .flat (run .flat {} aliceRefunding) ⟨[N "alice"], 0,
        .system (.undelegatebw (N "alice") (N "alice") (core 5) (core 0))⟩ = .ok s' ∧
      (RefundsScheduled s'.system ↔ ¬ CancelsRefund (run .flat {} aliceRefunding).system
        (.undelegatebw (N "alice") (N "alice") (core 5) (core 0))) := by
  obtain ⟨s', hs', -⟩ : ∃ s', exec .flat (run .flat {} aliceRefunding) ⟨[N "alice"], 0,
      .system (.undelegatebw (N "alice") (N "alice") (core 5) (core 0))⟩ = .ok s' ∧ True := by
    decide +kernel
  exact ⟨s', hs', refundsScheduled_iff_not_cancelsRefund rfl (by decide +kernel) hs'⟩

/-- Delegating to someone else cancels the transaction and leaves the refund. -/
theorem refund_left_unscheduled :
    RefundsScheduled (run .flat {} aliceRefunding).system ∧
      ∃ s', exec .flat (run .flat {} aliceRefunding) ⟨[N "alice"], 0,
          .system (.delegatebw (N "alice") (N "bob") (core 1) (core 0) false)⟩ = .ok s' ∧
        (s'.system.refunds.find (N "alice")).isSome ∧ ¬ Scheduled s'.system (N "alice") ∧
        ¬ RefundsScheduled s'.system := by
  decide +kernel

end Xidata.System
