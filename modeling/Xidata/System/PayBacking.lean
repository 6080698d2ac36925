import Xidata.System.Pay

/-!
The pay of producers is backed.  The counter of unpaid blocks is their number,
every fill is split completely, and a claim pays out what it takes from the
buckets.  The two accounts that pay hold what their buckets say, each as long as
it does not claim pay itself: what it is paid from the other one is in no bucket.
-/

namespace Xidata.System.Pay

open Eosiolib

variable {c : Ctx}

/-! ### What the token's actions do -/

/-- A transfer that went through. -/
structure Moved (t t' : Token) (from_ to_ : AccountName) (quantity : ℤ) : Prop where
  ne : from_ ≠ to_
  positive : 0 < quantity
  covered : quantity ≤ t.balance from_
  supply : t'.supply = t.supply
  balance : ∀ a, t'.balance a =
    t.balance a + (if a = from_ then -quantity else 0) + if a = to_ then quantity else 0

theorem Token.balance_add (t : Token) (owner : AccountName) (value : ℤ) (a : AccountName) :
    (t.add owner value).balance a = t.balance a + if a = owner then value else 0 := by
  show Function.update t.balance owner (t.balance owner + value) a = _
  by_cases ha : a = owner
  · rw [ha, Function.update_self, if_pos rfl]
  · rw [Function.update_of_ne ha, if_neg ha, add_zero]

theorem transfer_moved {t t' : Token} {from_ to_ : AccountName} {quantity : ℤ} {memo : String}
    (h : transfer c t from_ to_ quantity memo = .ok t') : Moved t t' from_ to_ quantity := by
  simp only [transfer, Rollback.bind_eq_ok, eosioAssert_eq_ok, requireAuth_eq_ok, exists_const,
    Rollback.pure_eq_ok] at h
  obtain ⟨hne, -, -, hpos, -, hcovered, rfl⟩ := h
  exact ⟨hne, hpos, hcovered, rfl, fun a => by rw [Token.balance_add, Token.balance_add]⟩

theorem execInline_transfer {t t' : Token} {from_ to_ : AccountName} {quantity : ℤ} {memo : String}
    (h : execInline c t (inlineTransfer from_ to_ quantity memo) = .ok t') :
    Moved t t' from_ to_ quantity := transfer_moved h

/-- What the contract issues goes to the contract. -/
theorem execInline_issue {t t' : Token} {quantity : ℤ} {memo : String}
    (h : execInline c t ⟨[self], .issue self quantity memo⟩ = .ok t') :
    0 < quantity ∧ t'.supply = t.supply + quantity ∧
      ∀ a, t'.balance a = t.balance a + if a = self then quantity else 0 := by
  simp only [execInline, issue, Rollback.bind_eq_ok, eosioAssert_eq_ok, requireAuth_eq_ok,
    exists_const, List.mem_singleton] at h
  obtain ⟨-, hissuer, hpos, -, h⟩ := h
  have hsame : ¬ self ≠ (t.add t.issuer quantity).issuer := not_not.mpr hissuer.symm
  rw [if_neg hsame, Rollback.pure_eq_ok] at h
  subst h
  exact ⟨hpos, rfl, fun a => hissuer ▸ Token.balance_add t t.issuer quantity a⟩

/-! ### A fill, and a payment -/

/-- What a fill issues, and how it is split. -/
structure Fill where
  toSavings : ℤ
  toPerBlockPay : ℤ
  toPerVotePay : ℤ

def Fill.issued (f : Fill) : ℤ := f.toSavings + f.toPerBlockPay + f.toPerVotePay

structure Fill.Nonneg (f : Fill) : Prop where
  toSavings : 0 ≤ f.toSavings
  toPerBlockPay : 0 ≤ f.toPerBlockPay
  toPerVotePay : 0 ≤ f.toPerVotePay

/-- How new tokens are split. -/
def fillOf (newTokens : ℕ) : Fill where
  toSavings := newTokens - (newTokens : ℤ).tdiv 5
  toPerBlockPay := ((newTokens : ℤ).tdiv 5).tdiv 4
  toPerVotePay := (newTokens : ℤ).tdiv 5 - ((newTokens : ℤ).tdiv 5).tdiv 4

theorem fillOf_issued (newTokens : ℕ) : (fillOf newTokens).issued = newTokens := by
  simp only [Fill.issued, fillOf]
  omega

theorem fillOf_nonneg (newTokens : ℕ) : (fillOf newTokens).Nonneg := by
  have htokens : (0 : ℤ) ≤ newTokens := Int.natCast_nonneg newTokens
  have hproducers := Int.tdiv_eq_ediv_of_nonneg (b := 5) htokens
  have hblocks := Int.tdiv_eq_ediv_of_nonneg (a := (newTokens : ℤ).tdiv 5) (b := 4) (by omega)
  constructor <;> simp only [fillOf] <;> omega

/-- The tokens after a fill: all that is issued is on the three accounts. -/
structure Filled (f : Fill) (t t' : Token) : Prop where
  supply : t'.supply = t.supply + f.issued
  balance : ∀ a, t'.balance a = t.balance a + (if a = savingAccount then f.toSavings else 0) +
    (if a = bpayAccount then f.toPerBlockPay else 0) + if a = vpayAccount then f.toPerVotePay else 0

/-- The tables after a fill. -/
structure Buckets (f : Fill) (s s' : State) : Prop where
  producers : s'.producers = s.producers
  perblockBucket : s'.perblockBucket = s.perblockBucket + f.toPerBlockPay
  pervoteBucket : s'.pervoteBucket = s.pervoteBucket + f.toPerVotePay
  totalUnpaidBlocks : s'.totalUnpaidBlocks = s.totalUnpaidBlocks

theorem fillBuckets_filled {s : State} {newTokens : ℕ} {t t' : Token}
    (h : (fillBuckets c s newTokens).2.foldlM (execInline c) t = .ok t') :
    ∃ f : Fill, f.Nonneg ∧ (f.issued = newTokens ∨ f.issued = 0) ∧
      Buckets f s (fillBuckets c s newTokens).1 ∧ Filled f t t' := by
  rw [fillBuckets] at h ⊢
  split at h
  · rename_i hdue
    simp only [if_pos hdue]
    simp only [List.foldlM_cons, List.foldlM_nil, Rollback.bind_eq_ok, Rollback.pure_eq_ok] at h
    obtain ⟨t₁, h₁, t₂, h₂, t₃, h₃, t₄, h₄, rfl⟩ := h
    obtain ⟨-, hsupply, hissued⟩ := execInline_issue h₁
    have hsaved : Moved t₁ t₂ self savingAccount (fillOf newTokens).toSavings :=
      execInline_transfer h₂
    have hblock : Moved t₂ t₃ self bpayAccount (fillOf newTokens).toPerBlockPay :=
      execInline_transfer h₃
    have hvote : Moved t₃ t₄ self vpayAccount (fillOf newTokens).toPerVotePay :=
      execInline_transfer h₄
    refine ⟨fillOf newTokens, fillOf_nonneg newTokens, .inl (fillOf_issued newTokens),
      ⟨rfl, rfl, rfl, rfl⟩, ?_, fun a => ?_⟩
    · rw [hvote.supply, hblock.supply, hsaved.supply, hsupply, fillOf_issued]
    · -- what the contract was issued it has passed on
      rw [hvote.balance, hblock.balance, hsaved.balance, hissued, ← fillOf_issued, Fill.issued]
      split_ifs <;> omega
  · rename_i hdue
    simp only [if_neg hdue]
    cases h
    exact ⟨⟨0, 0, 0⟩, ⟨le_rfl, le_rfl, le_rfl⟩, .inr rfl,
      ⟨rfl, (add_zero _).symm, (add_zero _).symm, rfl⟩, (add_zero _).symm, fun a => by simp⟩

/-- A payment, when it is made at all, is covered by the bucket's account. -/
theorem payFrom_paid {bucket owner : AccountName} {amount : ℤ} {memo : String} {t t' : Token}
    (hnonneg : 0 ≤ amount) (h : (payFrom bucket owner amount memo).foldlM (execInline c) t = .ok t') :
    (0 < amount → bucket ≠ owner ∧ amount ≤ t.balance bucket) ∧ t'.supply = t.supply ∧
      ∀ a, t'.balance a =
        t.balance a + (if a = bucket then -amount else 0) + if a = owner then amount else 0 := by
  rw [payFrom] at h
  split at h
  · rw [List.foldlM_cons, Rollback.bind_eq_ok] at h
    obtain ⟨m, hm, h⟩ := h
    cases h
    have hmoved := execInline_transfer hm
    exact ⟨fun _ => ⟨hmoved.ne, hmoved.covered⟩, hmoved.supply, hmoved.balance⟩
  · rename_i hzero
    cases h
    obtain rfl : amount = 0 := by omega
    exact ⟨fun hpos => absurd hpos (lt_irrefl 0), rfl, fun a => by simp⟩

/-- Nobody is paid more from the per-block bucket than there is. -/
theorem perBlockPay_bounds {s : State} {prod : Producer} (hbucket : 0 ≤ s.perblockBucket)
    (hunpaid : 0 ≤ prod.unpaidBlocks) (hle : prod.unpaidBlocks ≤ s.totalUnpaidBlocks) :
    0 ≤ s.perBlockPay prod ∧ s.perBlockPay prod ≤ s.perblockBucket := by
  rw [State.perBlockPay]
  split
  · rename_i hpos
    have hmul : 0 ≤ s.perblockBucket * prod.unpaidBlocks := mul_nonneg hbucket hunpaid
    rw [Int.tdiv_eq_ediv_of_nonneg hmul]
    exact ⟨Int.ediv_nonneg hmul hpos.le,
      Int.ediv_le_of_le_mul hpos (mul_le_mul_of_nonneg_left hle hbucket)⟩
  · exact ⟨le_rfl, hbucket⟩

theorem perVotePay_nonneg (s : State) (share : ℕ) : 0 ≤ s.perVotePay share := by
  have hshare : (0 : ℤ) ≤ share := Int.natCast_nonneg share
  simp only [State.perVotePay]
  split_ifs <;> omega

/-! ### A claim -/

/-- The counter of unpaid blocks is their number, and the per-block bucket is not
overdrawn. -/
structure Counted (s : State) : Prop where
  unpaid : s.totalUnpaidBlocks = s.producers.sum fun _ p => p.unpaidBlocks
  unpaid_nonneg : ∀ k p, s.producers.find k = some p → 0 ≤ p.unpaidBlocks
  perblock_nonneg : 0 ≤ s.perblockBucket

/-- What a claim moves: the fill `f`, and out of the two buckets what the owner is
paid. -/
structure ClaimPaid (s s' : Chain) (owner : AccountName) (f : Fill)
    (perBlockPay perVotePay : ℤ) : Prop where
  fill_nonneg : f.Nonneg
  perBlockPay_nonneg : 0 ≤ perBlockPay
  perVotePay_nonneg : 0 ≤ perVotePay
  supply : s'.token.supply = s.token.supply + f.issued
  perblockBucket : s'.system.perblockBucket =
    s.system.perblockBucket + f.toPerBlockPay - perBlockPay
  pervoteBucket : s'.system.pervoteBucket = s.system.pervoteBucket + f.toPerVotePay - perVotePay
  covered : 0 < perVotePay → perVotePay ≤ s.token.balance vpayAccount + f.toPerVotePay
  balance : ∀ a, s'.token.balance a = s.token.balance a +
    (if a = savingAccount then f.toSavings else 0) +
    (if a = bpayAccount then f.toPerBlockPay - perBlockPay else 0) +
    (if a = vpayAccount then f.toPerVotePay - perVotePay else 0) +
    if a = owner then perBlockPay + perVotePay else 0

/-- The parts of a claim that went through. -/
theorem claimrewards_cases {s s' : Chain} {owner : AccountName} {newTokens share : ℕ}
    (h : exec s ⟨c, .claimrewards owner newTokens share⟩ = .ok s') :
    ∃ prod t₁ t₂, s.system.producers.find owner = some prod ∧
      (fillBuckets c s.system newTokens).2.foldlM (execInline c) s.token = .ok t₁ ∧
      (payFrom bpayAccount owner ((fillBuckets c s.system newTokens).1.perBlockPay prod)
        "producer block pay").foldlM (execInline c) t₁ = .ok t₂ ∧
      (payFrom vpayAccount owner ((fillBuckets c s.system newTokens).1.perVotePay share)
        "producer vote pay").foldlM (execInline c) t₂ = .ok s'.token ∧
      s'.system = { (fillBuckets c s.system newTokens).1 with
        pervoteBucket := (fillBuckets c s.system newTokens).1.pervoteBucket -
          (fillBuckets c s.system newTokens).1.perVotePay share
        perblockBucket := (fillBuckets c s.system newTokens).1.perblockBucket -
          (fillBuckets c s.system newTokens).1.perBlockPay prod
        totalUnpaidBlocks := (fillBuckets c s.system newTokens).1.totalUnpaidBlocks -
          prod.unpaidBlocks
        producers := (fillBuckets c s.system newTokens).1.producers.set owner
          { prod with lastClaimTime := c.currentTime.toNat, unpaidBlocks := 0 } } := by
  simp only [exec, apply, claimrewards, Rollback.bind_eq_ok, eosioAssert_eq_ok, requireAuth_eq_ok,
    getRow_eq_ok, exists_const, Rollback.pure_eq_ok] at h
  obtain ⟨r, ⟨-, prod, hprod, -, -, -, rfl⟩, t, ht, rfl⟩ := h
  simp only [List.foldlM_append, Rollback.bind_eq_ok] at ht
  obtain ⟨t₂, ⟨t₁, h₁, h₂⟩, h₃⟩ := ht
  exact ⟨prod, t₁, t₂, hprod, h₁, h₂, h₃, rfl⟩

theorem bucketAccounts_ne :
    bpayAccount ≠ vpayAccount ∧ savingAccount ≠ bpayAccount ∧ savingAccount ≠ vpayAccount := by
  decide +kernel

/-- The blocks of one producer are among those that are counted. -/
theorem Counted.unpaid_le {s : State} (hs : Counted s) {owner : AccountName} {prod : Producer}
    (h : s.producers.find owner = some prod) : prod.unpaidBlocks ≤ s.totalUnpaidBlocks := by
  rw [hs.unpaid]
  exact OrderedTable.le_sum (f := fun _ p => p.unpaidBlocks) hs.unpaid_nonneg h

theorem Counted.claimrewards {s s' : Chain} {owner : AccountName} {newTokens share : ℕ}
    (hs : Counted s.system) (h : exec s ⟨c, .claimrewards owner newTokens share⟩ = .ok s') :
    Counted s'.system ∧ ∃ (f : Fill) (perBlockPay perVotePay : ℤ),
      (f.issued = newTokens ∨ f.issued = 0) ∧ ClaimPaid s s' owner f perBlockPay perVotePay := by
  obtain ⟨prod, t₁, t₂, hprod, h₁, h₂, h₃, hsystem⟩ := claimrewards_cases h
  obtain ⟨f, hf, hissued, hbuckets, hfilled⟩ := fillBuckets_filled h₁
  obtain ⟨hne, hsb, hsv⟩ := bucketAccounts_ne
  generalize (fillBuckets c s.system newTokens).1 = m at *
  have hunpaid := hs.unpaid_nonneg owner prod hprod
  have hle := hs.unpaid_le hprod
  have hbucket : 0 ≤ m.perblockBucket := by
    rw [hbuckets.perblockBucket]
    exact add_nonneg hs.perblock_nonneg hf.toPerBlockPay
  obtain ⟨hblock, hblockle⟩ := perBlockPay_bounds hbucket hunpaid
    (hbuckets.totalUnpaidBlocks ▸ hle)
  have hvote := perVotePay_nonneg m share
  generalize m.perBlockPay prod = perBlockPay at *
  generalize m.perVotePay share = perVotePay at *
  obtain ⟨-, hsupply₂, hbalance₂⟩ := payFrom_paid hblock h₂
  obtain ⟨hcovered, hsupply₃, hbalance₃⟩ := payFrom_paid hvote h₃
  have hclaim : ClaimPaid s s' owner f perBlockPay perVotePay := by
    refine ⟨hf, hblock, hvote, ?_, ?_, ?_, fun hpos => ?_, fun a => ?_⟩
    · rw [hsupply₃, hsupply₂, hfilled.supply]
    · rw [hsystem, ← hbuckets.perblockBucket]
    · rw [hsystem, ← hbuckets.pervoteBucket]
    · -- an account that pays is not the one that is paid
      obtain ⟨howner, hle⟩ := hcovered hpos
      rw [hbalance₂, hfilled.balance, if_neg hsv.symm, if_neg hne.symm, if_pos rfl,
        if_neg hne.symm, if_neg howner] at hle
      omega
    · rw [hbalance₃, hbalance₂, hfilled.balance]
      split_ifs <;> omega
  have hsum : s'.system.producers.sum (fun _ p => p.unpaidBlocks) =
      s.system.producers.sum (fun _ p => p.unpaidBlocks) - prod.unpaidBlocks := by
    rw [hsystem, hbuckets.producers, OrderedTable.sum_set_sub, hprod, Option.elim_some]
    show _ + (0 - prod.unpaidBlocks) = _
    omega
  refine ⟨⟨?_, fun k p hp => ?_, ?_⟩, f, perBlockPay, perVotePay, hissued, hclaim⟩
  · rw [hsum, ← hs.unpaid, hsystem, ← hbuckets.totalUnpaidBlocks]
  · rw [hsystem, hbuckets.producers, OrderedTable.find_set] at hp
    split at hp
    · cases hp
      exact le_rfl
    · exact hs.unpaid_nonneg k p hp
  · rw [hsystem]
    exact sub_nonneg.mpr hblockle

/-! ### The other actions -/

/-- A producer's row is written with the blocks it had. -/
theorem Counted.setProducer {s : State} {k : AccountName} {info : Producer} (hs : Counted s)
    (h : info.unpaidBlocks = (s.producers.find k).elim 0 Producer.unpaidBlocks) :
    Counted { s with producers := s.producers.set k info } where
  unpaid := by
    rw [hs.unpaid, OrderedTable.sum_set_sub, h]
    cases s.producers.find k <;> simp
  unpaid_nonneg k' p hp := by
    rw [OrderedTable.find_set] at hp
    split at hp
    · cases hp
      rw [h]
      cases hfind : s.producers.find k with
      | none => exact le_rfl
      | some p => exact hs.unpaid_nonneg k p hfind
    · exact hs.unpaid_nonneg k' p hp
  perblock_nonneg := hs.perblock_nonneg

/-- The two buckets agree. -/
structure SameBuckets (s s' : State) : Prop where
  perblockBucket : s'.perblockBucket = s.perblockBucket
  pervoteBucket : s'.pervoteBucket = s.pervoteBucket

theorem Counted.countBlock {s : State} (hs : Counted s) (producer : AccountName) :
    Counted (countBlock s producer) ∧ SameBuckets s (countBlock s producer) := by
  unfold Pay.countBlock
  split
  · rename_i info hinfo
    refine ⟨⟨?_, fun k p hp => ?_, hs.perblock_nonneg⟩, rfl, rfl⟩
    · rw [OrderedTable.sum_set_sub, hinfo, Option.elim_some]
      show s.totalUnpaidBlocks + 1 = _ + (info.unpaidBlocks + 1 - info.unpaidBlocks)
      rw [hs.unpaid]
      omega
    · rw [OrderedTable.find_set] at hp
      split at hp
      · cases hp
        exact add_nonneg (hs.unpaid_nonneg producer info hinfo) zero_le_one
      · exact hs.unpaid_nonneg k p hp
  · exact ⟨hs, rfl, rfl⟩

theorem Counted.startPervoteFill {s : State} (hs : Counted s) (c : Ctx) :
    Counted (startPervoteFill c s) ∧ SameBuckets s (startPervoteFill c s) := by
  unfold Pay.startPervoteFill
  split
  · exact ⟨⟨hs.unpaid, hs.unpaid_nonneg, hs.perblock_nonneg⟩, rfl, rfl⟩
  · exact ⟨hs, rfl, rfl⟩

theorem Counted.onblock {s s' : State} {producer : AccountName} (hs : Counted s)
    (h : onblock c s producer = .ok s') : Counted s' ∧ SameBuckets s s' := by
  simp only [Pay.onblock, Rollback.bind_eq_ok] at h
  obtain ⟨_, -, h⟩ := h
  split at h <;> cases h
  · exact ⟨hs, rfl, rfl⟩
  · obtain ⟨hstart, hsame⟩ := hs.startPervoteFill c
    obtain ⟨hcounted, hsame'⟩ := hstart.countBlock producer
    exact ⟨hcounted, hsame'.perblockBucket.trans hsame.perblockBucket,
      hsame'.pervoteBucket.trans hsame.pervoteBucket⟩

/-- The owner of a claim. -/
def Action.claimant : Action → Option AccountName
  | .claimrewards owner _ _ => some owner
  | _ => none

/-- An action that sends nothing leaves the token as it is. -/
theorem exec_of_silent {s s' : Chain} {a : Action} {x : Result State}
    (ha : apply c s.system a = (·, []) <$> x) (h : exec s ⟨c, a⟩ = .ok s') :
    ∃ system, x = .ok system ∧ s' = ⟨system, s.token⟩ := by
  simp only [exec, ha, Rollback.bind_eq_ok, Rollback.map_eq_ok, Rollback.pure_eq_ok] at h
  obtain ⟨r, ⟨system, hsystem, rfl⟩, t, ht, rfl⟩ := h
  cases ht
  exact ⟨system, hsystem, rfl⟩

/-- What an action does to the pay: it is a claim, or moves nothing. -/
inductive PayEffect (s s' : Chain) (e : Event) : Prop
  | claim {owner : AccountName} {newTokens share : ℕ} {f : Fill} {perBlockPay perVotePay : ℤ}
      (ha : e.action = .claimrewards owner newTokens share)
      (hissued : f.issued = newTokens ∨ f.issued = 0)
      (h : ClaimPaid s s' owner f perBlockPay perVotePay) : PayEffect s s' e
  | silent (ha : e.action.claimant = none) (htoken : s'.token = s.token)
      (h : SameBuckets s.system s'.system) : PayEffect s s' e

theorem Counted.exec {s s' : Chain} {e : Event} (hs : Counted s.system) (h : exec s e = .ok s') :
    Counted s'.system ∧ PayEffect s s' e := by
  obtain ⟨c, action⟩ := e
  cases action with
  | claimrewards owner newTokens share =>
      obtain ⟨hcounted, f, perBlockPay, perVotePay, hissued, hclaim⟩ := hs.claimrewards h
      exact ⟨hcounted, .claim rfl hissued hclaim⟩
  | onblock producer =>
      obtain ⟨system, hsystem, rfl⟩ := exec_of_silent rfl h
      obtain ⟨hcounted, hsame⟩ := hs.onblock hsystem
      exact ⟨hcounted, .silent rfl rfl hsame⟩
  | regproducer producer key url location =>
      obtain ⟨system, hsystem, rfl⟩ := exec_of_silent rfl h
      simp only [regproducer, Rollback.bind_eq_ok, Rollback.pure_eq_ok] at hsystem
      obtain ⟨_, -, _, -, _, -, rfl⟩ := hsystem
      refine ⟨hs.setProducer ?_, .silent rfl rfl ⟨rfl, rfl⟩⟩
      cases s.system.producers.find producer <;> rfl
  | unregprod producer =>
      obtain ⟨system, hsystem, rfl⟩ := exec_of_silent rfl h
      simp only [unregprod, Rollback.bind_eq_ok, getRow_eq_ok, Rollback.pure_eq_ok] at hsystem
      obtain ⟨_, -, info, hinfo, rfl⟩ := hsystem
      exact ⟨hs.setProducer (by rw [hinfo]; rfl), .silent rfl rfl ⟨rfl, rfl⟩⟩
  | rmvproducer producer =>
      obtain ⟨system, hsystem, rfl⟩ := exec_of_silent rfl h
      simp only [rmvproducer, Rollback.bind_eq_ok, getRow_eq_ok, Rollback.pure_eq_ok] at hsystem
      obtain ⟨_, -, info, hinfo, rfl⟩ := hsystem
      exact ⟨hs.setProducer (by rw [hinfo]; rfl), .silent rfl rfl ⟨rfl, rfl⟩⟩

/-! ### The two accounts that pay -/

def BpayBacked (s : Chain) : Prop := s.token.balance bpayAccount = s.system.perblockBucket

/-- A bucket from which any share may be paid is not overdrawn because the account
is not. -/
structure VpayBacked (s : Chain) : Prop where
  balance : s.token.balance vpayAccount = s.system.pervoteBucket
  nonneg : 0 ≤ s.system.pervoteBucket

theorem PayEffect.bpayBacked {s s' : Chain} {e : Event} (h : PayEffect s s' e)
    (hs : BpayBacked s) (hother : bpayAccount ∉ e.action.claimant) : BpayBacked s' := by
  obtain ⟨hne, hsb, -⟩ := bucketAccounts_ne
  cases h with
  | claim ha _ h =>
      have howner : ¬ bpayAccount = _ := fun heq => hother (by rw [ha, heq]; rfl)
      rw [BpayBacked, h.balance, h.perblockBucket, if_neg hsb.symm, if_pos rfl, if_neg hne,
        if_neg howner, show s.token.balance bpayAccount = _ from hs]
      omega
  | silent _ htoken h =>
      rw [BpayBacked, htoken, h.perblockBucket]
      exact hs

theorem PayEffect.vpayBacked {s s' : Chain} {e : Event} (h : PayEffect s s' e)
    (hs : VpayBacked s) (hother : vpayAccount ∉ e.action.claimant) : VpayBacked s' := by
  obtain ⟨hne, -, hsv⟩ := bucketAccounts_ne
  cases h with
  | claim ha _ h =>
      have howner : ¬ vpayAccount = _ := fun heq => hother (by rw [ha, heq]; rfl)
      have hbalance := h.balance vpayAccount
      rw [if_neg hsv.symm, if_neg hne.symm, if_pos rfl, if_neg howner, hs.balance] at hbalance
      have hbucket := h.pervoteBucket
      have hnonneg := hs.nonneg
      have hfill := h.fill_nonneg.toPerVotePay
      have hcovered := h.covered
      rw [hs.balance] at hcovered
      exact ⟨by omega, by omega⟩
  | silent _ htoken h =>
      constructor
      · rw [htoken, h.pervoteBucket, hs.balance]
      · rw [h.pervoteBucket]
        exact hs.nonneg

/-! ### Runs -/

/-- Nothing is owed for blocks, and the two paying accounts are empty like their
buckets. -/
structure Fresh (s : Chain) : Prop where
  totalUnpaidBlocks : s.system.totalUnpaidBlocks = 0
  unpaidBlocks : ∀ k p, s.system.producers.find k = some p → p.unpaidBlocks = 0
  perblockBucket : s.system.perblockBucket = 0
  pervoteBucket : s.system.pervoteBucket = 0
  bpay : s.token.balance bpayAccount = 0
  vpay : s.token.balance vpayAccount = 0

theorem Fresh.counted {s : Chain} (hs : Fresh s) : Counted s.system where
  unpaid := by
    rw [hs.totalUnpaidBlocks]
    exact (OrderedTable.sum_eq_zero hs.unpaidBlocks).symm
  unpaid_nonneg k p hp := (hs.unpaidBlocks k p hp).ge
  perblock_nonneg := hs.perblockBucket.ge

/-- A claim splits all of what is issued between the savings and the two buckets, and
pays its owner what it takes from the buckets. -/
def PayStep (s : Chain) (e : Event) (s' : Chain) : Prop :=
  ∀ owner newTokens share, e.action = .claimrewards owner newTokens share →
    ∃ (f : Fill) (perBlockPay perVotePay : ℤ), (f.issued = newTokens ∨ f.issued = 0) ∧
      ClaimPaid s s' owner f perBlockPay perVotePay

theorem PayEffect.payStep {s s' : Chain} {e : Event} (h : PayEffect s s' e) : PayStep s e s' := by
  intro owner newTokens share ha
  cases h with
  | claim ha' hissued h =>
      rw [ha] at ha'
      cases ha'
      exact ⟨_, _, _, hissued, h⟩
  | silent hnone =>
      rw [ha] at hnone
      cases hnone

/-- An invariant of the pay that every effect keeps, for events that satisfy `A`. -/
theorem run_payEffect {I : Chain → Prop} {A : Event → Prop}
    (hstep : ∀ s e s', A e → PayEffect s s' e → I s → I s') {s : Chain} {es : List Event}
    (hes : ∀ e ∈ es, A e) (hs : Counted s.system) (hI : I s) :
    (Counted (run s es).system ∧ I (run s es)) ∧ Rollback.Along exec PayStep s es :=
  Rollback.along_induction (I := fun s => Counted s.system ∧ I s)
    (fun s e s' ⟨hs, hI⟩ he h =>
      have ⟨hcounted, heffect⟩ := hs.exec h
      ⟨⟨hcounted, hstep s e s' he heffect hI⟩, heffect.payStep⟩) hes ⟨hs, hI⟩

/-- The pay after a run. -/
structure PayBacked (s : Chain) (es : List Event) : Prop where
  counted : Counted (run s es).system
  claims : Rollback.Along exec PayStep s es
  bpay : (∀ e ∈ es, bpayAccount ∉ e.action.claimant) → BpayBacked (run s es)
  vpay : (∀ e ∈ es, vpayAccount ∉ e.action.claimant) → VpayBacked (run s es)

/-- In every run the counter of unpaid blocks is their number, the per-block bucket is
not overdrawn, and each claim pays what it takes; and each of the two accounts
holds what its bucket says, unless it has claimed pay itself. -/
theorem producer_pay_backed {s : Chain} (hs : Fresh s) (es : List Event) : PayBacked s es := by
  have ⟨⟨hcounted, _⟩, hclaims⟩ :
      (Counted (run s es).system ∧ True) ∧ Rollback.Along exec PayStep s es :=
    run_payEffect (I := fun _ => True) (A := fun _ => True)
      (fun _ _ _ _ _ _ => trivial) (fun _ _ => trivial) hs.counted trivial
  refine ⟨hcounted, hclaims, fun hes => ?_, fun hes => ?_⟩
  · exact (run_payEffect (fun _ _ _ he heffect hI => heffect.bpayBacked hI he) hes hs.counted
      (hs.bpay.trans hs.perblockBucket.symm)).1.2
  · exact (run_payEffect (fun _ _ _ he heffect hI => heffect.vpayBacked hI he) hes hs.counted
      ⟨hs.vpay.trans hs.pervoteBucket.symm, hs.pervoteBucket.ge⟩).1.2

/-- The chain with enough stake activated. -/
def activatedChain : Chain where
  system := { totalActivatedStake := minActivatedStake.toInt }
  token := ⟨1000, 1000000, self, fun _ => 0⟩

/-- `producer` registers, produces a block, and a week later claims its pay from an
inflation of 100. -/
def blockAndClaim (producer : AccountName) : List Event :=
  let accounts : Finset AccountName := {producer, savingAccount, bpayAccount, vpayAccount}
  [⟨⟨[producer], 1, accounts⟩, .regproducer producer ⟨0, List.replicate 33 1⟩ "" 0⟩,
    ⟨⟨[self], 1, accounts⟩, .onblock producer⟩,
    ⟨⟨[producer], 7 * usecondsPerDay, accounts⟩, .claimrewards producer 100 0⟩]

theorem activatedChain_fresh : Fresh activatedChain :=
  ⟨rfl, fun _ _ h => (by cases h), rfl, rfl, rfl, rfl⟩

/-- Alice is paid all there is for blocks, and the buckets are backed. -/
theorem producer_pay_backed_alice :
    PayBacked activatedChain (blockAndClaim (N "alice")) ∧
      VpayBacked (run activatedChain (blockAndClaim (N "alice"))) ∧
      (run activatedChain (blockAndClaim (N "alice"))).token.balance (N "alice") = 5 := by
  have hbacked := producer_pay_backed activatedChain_fresh (blockAndClaim (N "alice"))
  refine ⟨hbacked, hbacked.vpay ?_, by decide +kernel⟩
  have hne : some (N "alice") ≠ some vpayAccount := by decide +kernel
  intro e he
  rw [blockAndClaim, List.mem_cons, List.mem_cons, List.mem_singleton] at he
  rcases he with rfl | rfl | rfl
  · exact fun h => (by cases h)
  · exact fun h => (by cases h)
  · exact hne

/-- When it is `eosio.vpay` that produces and claims, it is paid from the other bucket
and holds more than its own bucket says. -/
theorem paid_into_bucket :
    Fresh activatedChain ∧
      (run activatedChain (blockAndClaim vpayAccount)).token.balance vpayAccount = 20 ∧
      (run activatedChain (blockAndClaim vpayAccount)).system.pervoteBucket = 15 ∧
      ¬ VpayBacked (run activatedChain (blockAndClaim vpayAccount)) := by
  have hbalance :
      (run activatedChain (blockAndClaim vpayAccount)).token.balance vpayAccount = 20 := by
    decide +kernel
  have hbucket : (run activatedChain (blockAndClaim vpayAccount)).system.pervoteBucket = 15 := by
    decide +kernel
  refine ⟨activatedChain_fresh, hbalance, hbucket, fun h => ?_⟩
  have hsame := h.balance
  rw [hbalance, hbucket] at hsame
  cases hsame

end Xidata.System.Pay
