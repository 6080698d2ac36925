import Xidata.System.PayRefinement

/-!
What a claim pays for blocks, in machine integers.  The bucket is multiplied by the producer's
blocks in 64 bits before the quotient by all unpaid blocks is taken, so the pay is the share
it is meant to be exactly as long as the product fits.
-/

namespace Xidata.System

open Eosiolib

variable {env : Env} {c : Ctx} {token : Token.State} {s : State} {owner : AccountName}

/-! ### The product and the quotient -/

/-- A product that is cut off loses more than the divisor, which the quotient shows. -/
theorem bmod_tdiv_eq_iff {p t : ℤ} (hp : 0 ≤ p) (ht : 0 < t) (hlt : t < 2 ^ 32) :
    (p.bmod (2 ^ 64)).tdiv t = p / t ↔ p < 2 ^ 63 := by
  constructor
  · intro h
    by_contra hge
    have hw := Int.bmod_lt (x := p) (m := 2 ^ 64) (by decide)
    have hmod := Int.bmod_add_bdiv p (2 ^ 64)
    have hcut : p.bmod (2 ^ 64) ≤ p - 2 ^ 64 := by
      have hpos : 0 < p.bdiv (2 ^ 64) := by
        by_contra hle
        omega
      omega
    have hdiv : (p - t) / t = p / t - 1 := by
      rw [Int.sub_ediv_of_dvd p (dvd_refl t), Int.ediv_self ht.ne']
    have hle : (p.bmod (2 ^ 64)).tdiv t ≤ (p - t).tdiv t := Int.tdiv_le_tdiv ht (by omega)
    rw [Int.tdiv_eq_ediv_of_nonneg (by omega : 0 ≤ p - t)] at hle
    omega
  · intro h
    rw [Asset.bmod_eq_self (by omega) h, Int.tdiv_eq_ediv_of_nonneg hp]

/-- The expression for the pay of a producer with `unpaidBlocks`. -/
def blockPay (g : GlobalState) (unpaidBlocks : UInt32) : Int64 :=
  if 0 < g.totalUnpaidBlocks then
    (g.perblockBucket * unpaidBlocks.toUInt64.toInt64) / g.totalUnpaidBlocks.toUInt64.toInt64
  else 0

/-- The share that it is meant to be. -/
def blockShare (bucket : ℤ) (unpaidBlocks totalUnpaidBlocks : ℕ) : ℤ :=
  bucket * unpaidBlocks / totalUnpaidBlocks

theorem blockShare_bounds {bucket : ℤ} {unpaid total : ℕ} (hbucket : 0 ≤ bucket)
    (hle : unpaid ≤ total) :
    0 ≤ blockShare bucket unpaid total ∧ blockShare bucket unpaid total ≤ bucket := by
  have hprod : 0 ≤ bucket * unpaid := mul_nonneg hbucket (Int.natCast_nonneg unpaid)
  refine ⟨Int.ediv_nonneg hprod (Int.natCast_nonneg total), ?_⟩
  rcases Nat.eq_zero_or_pos total with rfl | hpos
  · rw [blockShare, Nat.cast_zero, Int.ediv_zero]
    exact hbucket
  · have hcast : (unpaid : ℤ) ≤ total := by exact_mod_cast hle
    exact Int.ediv_le_of_le_mul (by exact_mod_cast hpos) (mul_le_mul_of_nonneg_left hcast hbucket)

theorem toInt_blockPay (g : GlobalState) (unpaid : UInt32) :
    (blockPay g unpaid).toInt =
      ((g.perblockBucket.toInt * unpaid.toNat).bmod (2 ^ 64)).tdiv g.totalUnpaidBlocks.toNat := by
  rw [blockPay, Pay.toInt_div_count, Int64.toInt_mul, toInt_toUInt64]

/-- The machine's pay is the share if and only if the product fits. -/
theorem blockPay_eq_share_iff {g : GlobalState} {unpaid : UInt32}
    (hbucket : 0 ≤ g.perblockBucket.toInt) (hle : unpaid ≤ g.totalUnpaidBlocks) :
    (blockPay g unpaid).toInt =
        blockShare g.perblockBucket.toInt unpaid.toNat g.totalUnpaidBlocks.toNat ↔
      g.perblockBucket.toInt * unpaid.toNat < 2 ^ 63 := by
  have hunpaid := UInt32.le_iff_toNat_le.mp hle
  have hprod := mul_nonneg hbucket (Int.natCast_nonneg unpaid.toNat)
  rw [toInt_blockPay, blockShare]
  rcases Nat.eq_zero_or_pos g.totalUnpaidBlocks.toNat with hzero | hpos
  · have hnone : unpaid.toNat = 0 := by omega
    rw [hzero, hnone]
    simp
  · have hlt : (g.totalUnpaidBlocks.toNat : ℤ) < 2 ^ 32 := by
      exact_mod_cast g.totalUnpaidBlocks.toNat_lt
    exact bmod_tdiv_eq_iff hprod (by exact_mod_cast hpos) hlt

/-! ### A claim -/

theorem payFrom_ok {bucket owner : AccountName} {amount : Int64} {memo : String}
    {sent : List Token.Inline} (h : payFrom bucket owner amount memo = .ok sent) :
    sent = if 0 < amount then [inlineTransfer bucket owner ⟨amount, coreSymbol⟩ memo] else [] := by
  rw [payFrom] at h
  split at h
  · rename_i hpos
    simp only [Rollback.bind_eq_ok, Asset.make_eq_ok, Rollback.pure_eq_ok] at h
    obtain ⟨_, ⟨-, -, rfl⟩, rfl⟩ := h
    rw [if_pos hpos]
  · rename_i hpos
    cases h
    rw [if_neg hpos]

theorem auth_payFrom {bucket owner : AccountName} {amount : Int64} {memo : String}
    {sent : List Token.Inline} (h : payFrom bucket owner amount memo = .ok sent) :
    ∀ i ∈ sent, i.auth = [bucket] := by
  rw [payFrom_ok h]
  split <;> simp [inlineTransfer]

theorem filter_auth {sent : List Token.Inline} {a b : AccountName}
    (h : ∀ i ∈ sent, i.auth = [a]) :
    sent.filter (fun i => i.auth = [b]) = if a = b then sent else [] := by
  split
  · rename_i hab
    exact List.filter_eq_self.mpr fun i hi => by simp [h i hi, hab]
  · rename_i hab
    exact List.filter_eq_nil_iff.mpr fun i hi => by simp [h i hi, hab]

/-- What a claim that goes through does with the per-block bucket and the counter. -/
theorem claimrewards_parts {r : State × List Token.Inline} {prod : ProducerInfo}
    (hprod : s.producers.find owner = some prod) (h : claimrewards env c token s owner = .ok r) :
    ∃ filled blockSent voteSent votePay, fillBuckets env c token s = .ok filled ∧
      payFrom bpayAccount owner (blockPay filled.1.global prod.unpaidBlocks)
        "producer block pay" = .ok blockSent ∧
      payFrom vpayAccount owner votePay "producer vote pay" = .ok voteSent ∧
      r.2 = filled.2 ++ blockSent ++ voteSent ∧
      r.1.global.perblockBucket = filled.1.global.perblockBucket -
        blockPay filled.1.global prod.unpaidBlocks ∧
      r.1.global.totalUnpaidBlocks = filled.1.global.totalUnpaidBlocks - prod.unpaidBlocks := by
  simp only [claimrewards, Rollback.bind_eq_ok, getRow_eq_ok, requireAuth_eq_ok,
    eosioAssert_eq_ok, exists_const, Rollback.pure_eq_ok] at h
  obtain ⟨-, prod', hprod', -, -, -, filled, hfilled, blockSent, hblock, voteSent, hvote, rfl⟩ := h
  obtain rfl := Option.some.inj (hprod.symm.trans hprod')
  exact ⟨filled, blockSent, voteSent, _, hfilled, hblock, hvote, rfl, rfl, rfl⟩

/-- The part of the inflation since the last fill that goes to the per-block bucket. -/
def blockInflation (env : Env) (c : Ctx) (s : State) (supply : Int64) : ℤ :=
  let usecsSinceLastFill := c.currentTime - s.global.lastPervoteBucketFill
  if 0 < usecsSinceLastFill ∧ 0 < s.global.lastPervoteBucketFill then
    ((env.newTokens supply usecsSinceLastFill).toInt.tdiv 5).tdiv 4
  else 0

/-- The buckets after the fill, when what is issued is positive. -/
theorem fillBuckets_block {supply : Asset} {filled : State × List Token.Inline}
    (hsupply : Token.getSupply token coreSymbol.name = .ok supply)
    (hpos : ∀ auth to_ quantity memo, ⟨auth, .issue to_ quantity memo⟩ ∈ filled.2 →
      0 < Asset.units quantity)
    (hbucket : 0 ≤ s.global.perblockBucket.toInt ∧ s.global.perblockBucket.toInt ≤ 2 ^ 62 - 1)
    (h : fillBuckets env c token s = .ok filled) :
    0 ≤ blockInflation env c s supply.amount ∧
      filled.1.global.perblockBucket.toInt =
        s.global.perblockBucket.toInt + blockInflation env c s supply.amount ∧
      filled.1.global.totalUnpaidBlocks = s.global.totalUnpaidBlocks ∧
      ∀ i ∈ filled.2, i.auth = [self] := by
  simp only [fillBuckets, Rollback.bind_eq_ok, hsupply, Except.ok.injEq, exists_eq_left'] at h
  rw [blockInflation]
  split at h
  · rename_i hdue
    rw [if_pos hdue]
    generalize env.newTokens supply.amount
      (c.currentTime - s.global.lastPervoteBucketFill) = newTokens at h ⊢
    simp only [Rollback.bind_eq_ok, Asset.make_eq_ok, Rollback.pure_eq_ok] at h
    obtain ⟨_, ⟨hissued, -, rfl⟩, _, ⟨-, -, rfl⟩, _, ⟨-, -, rfl⟩, _, ⟨-, -, rfl⟩, rfl⟩ := h
    have hunits : 0 < newTokens.toInt := hpos _ _ _ _ List.mem_cons_self
    have hrange : newTokens.toInt ≤ 2 ^ 62 - 1 := (Asset.isAmountWithinRange_iff.mp hissued).2
    have hsplit := Pay.splitOf hunits.le
    obtain ⟨hblock, hblock'⟩ := hsplit.perBlock_bounds
    refine ⟨hblock, ?_, rfl, ?_⟩
    · rw [← hsplit.toPerBlockPay] at hblock hblock' ⊢
      exact toInt_add_of_bounds (by omega) (by omega)
    · simp [inlineTransfer]
  · rename_i hdue
    cases h
    rw [if_neg hdue, add_zero]
    exact ⟨le_refl 0, rfl, rfl, fun i hi => by cases hi⟩

/-- The claim pays the exact share of the bucket for `unpaid` of `total` blocks: it is sent to
the owner out of the account of the bucket, if there is anything to send, and nothing else is;
and both counters go down by what is paid and by what is paid for. -/
structure PaysShare (bucket : ℤ) (unpaid total : ℕ) (owner : AccountName)
    (r : State × List Token.Inline) : Prop where
  nonneg : 0 ≤ blockShare bucket unpaid total
  le : blockShare bucket unpaid total ≤ bucket
  sent : r.2.filter (fun i => i.auth = [bpayAccount]) =
    if 0 < blockShare bucket unpaid total then
      [inlineTransfer bpayAccount owner
        ⟨Int64.ofInt (blockShare bucket unpaid total), coreSymbol⟩ "producer block pay"]
    else []
  perblockBucket : r.1.global.perblockBucket.toInt = bucket - blockShare bucket unpaid total
  totalUnpaidBlocks : (r.1.global.totalUnpaidBlocks.toNat : ℤ) = total - unpaid

/-- From a state whose bucket is covered by the supply and whose counter of unpaid blocks
covers every producer, a claim that goes through pays the exact share if and only if the bucket,
with the inflation due, times the blocks of the producer fits into 63 bits. -/
theorem claimrewards_paysShare_iff {supply : Asset} {prod : ProducerInfo}
    {r : State × List Token.Inline} {t' : Token.State}
    (hsupply : Token.getSupply token coreSymbol.name = .ok supply)
    (hmax : supply.units ≤ 2 ^ 62 - 1) (hbucket : 0 ≤ s.global.perblockBucket.toInt)
    (hcovered : s.global.perblockBucket.toInt ≤ supply.units)
    (hunpaid : ∀ k p, s.producers.find k = some p → p.unpaidBlocks ≤ s.global.totalUnpaidBlocks)
    (hprod : s.producers.find owner = some prod)
    (h : claimrewards env c token s owner = .ok r)
    (hsettled : r.2.foldlM (execInline c) token = .ok t') :
    PaysShare (s.global.perblockBucket.toInt + blockInflation env c s supply.amount)
        prod.unpaidBlocks.toNat s.global.totalUnpaidBlocks.toNat owner r ↔
      (s.global.perblockBucket.toInt + blockInflation env c s supply.amount) *
        prod.unpaidBlocks.toNat < 2 ^ 63 := by
  obtain ⟨filled, blockSent, voteSent, votePay, hfilled, hblock, hvote, hsent, hleft, htotal⟩ :=
    claimrewards_parts hprod h
  rw [hsent, List.append_assoc, List.foldlM_append, Rollback.bind_eq_ok] at hsettled
  obtain ⟨t₁, hfill, -⟩ := hsettled
  obtain ⟨hinflation, hfull, hcount, hauth⟩ := fillBuckets_block hsupply
    (fun _ _ _ _ hmem => Pay.settle_issue_pos hfill hmem) ⟨hbucket, hcovered.trans hmax⟩ hfilled
  have hle : prod.unpaidBlocks ≤ filled.1.global.totalUnpaidBlocks :=
    hcount ▸ hunpaid owner prod hprod
  have hnonneg : 0 ≤ filled.1.global.perblockBucket.toInt := by
    rw [hfull]
    exact add_nonneg hbucket hinflation
  have hfits := blockPay_eq_share_iff hnonneg hle
  obtain ⟨hshare, hshare'⟩ := blockShare_bounds hnonneg (UInt32.le_iff_toNat_le.mp hle)
  have hmaxBucket := filled.1.global.perblockBucket.toInt_lt
  rw [← hfull, ← hcount, ← hfits]
  constructor
  · intro hpays
    -- the two sides differ by a multiple of the modulus, and both are in the signed range
    have hwrap := hpays.perblockBucket
    rw [hleft, Int64.toInt_sub] at hwrap
    have hlow := (blockPay filled.1.global prod.unpaidBlocks).le_toInt
    have hhigh := (blockPay filled.1.global prod.unpaidBlocks).toInt_lt
    have hmod := Int.bmod_add_bdiv (filled.1.global.perblockBucket.toInt -
      (blockPay filled.1.global prod.unpaidBlocks).toInt) (2 ^ 64)
    rw [hwrap] at hmod
    omega
  · intro heq
    have hpay : blockPay filled.1.global prod.unpaidBlocks =
        Int64.ofInt (blockShare filled.1.global.perblockBucket.toInt prod.unpaidBlocks.toNat
          filled.1.global.totalUnpaidBlocks.toNat) := by
      rw [← heq, Int64.ofInt_toInt]
    have hpos : 0 < blockPay filled.1.global prod.unpaidBlocks ↔
        0 < blockShare filled.1.global.perblockBucket.toInt prod.unpaidBlocks.toNat
          filled.1.global.totalUnpaidBlocks.toNat := by
      rw [Int64.lt_iff_toInt_lt, heq]
      rfl
    refine ⟨hshare, hshare', ?_, ?_, ?_⟩
    · have hself : self ≠ bpayAccount := by decide +kernel
      have hvpay : vpayAccount ≠ bpayAccount := by decide +kernel
      rw [hsent, List.filter_append, List.filter_append, filter_auth hauth, if_neg hself,
        filter_auth (auth_payFrom hblock), if_pos rfl, filter_auth (auth_payFrom hvote),
        if_neg hvpay, List.nil_append, List.append_nil, payFrom_ok hblock]
      by_cases hp : 0 < blockPay filled.1.global prod.unpaidBlocks
      · rw [if_pos hp, if_pos (hpos.mp hp), hpay]
      · rw [if_neg hp, if_neg (mt hpos.mpr hp)]
    · rw [hleft, ← heq]
      exact toInt_sub_of_bounds (by omega) (by omega)
    · rw [htotal, UInt32.toNat_sub_of_le _ _ hle]
      have hleNat := UInt32.le_iff_toNat_le.mp hle
      omega

/-! ### Four blocks -/

def fourBlocks : ProducerInfo where
  owner := N "alice"
  producerKey := ⟨0, List.replicate 33 1⟩
  url := ""
  unpaidBlocks := 4

/-- Before the first fill, with one producer to whom all of the four unpaid blocks belong. -/
def fourUnpaid (perblockBucket : Int64) : State where
  producers := OrderedTable.empty.set (N "alice") fourBlocks
  global :=
    { perblockBucket, totalUnpaidBlocks := 4, totalActivatedStake := minActivatedStake }

/-- All tokens are in the account of the bucket. -/
def fundedToken (supply : Int64) : Token.State where
  stat := OrderedTable.empty.set coreSymbol.name ⟨core supply, core Asset.maxAmount, self⟩
  accounts := OrderedTable.empty.set ⟨bpayAccount, coreSymbol.name⟩ ⟨core supply⟩

def twoDays : Ctx := ⟨[N "alice"], 2 * usecondsPerDay, {N "alice", bpayAccount}⟩

theorem fourUnpaid_le (bucket : Int64) (k : AccountName) (p : ProducerInfo)
    (h : (fourUnpaid bucket).producers.find k = some p) :
    p.unpaidBlocks ≤ (fourUnpaid bucket).global.totalUnpaidBlocks := by
  rw [fourUnpaid, OrderedTable.find_set] at h
  split at h
  · cases h
    exact UInt32.le_refl 4
  · cases h

/-- Alice is paid all of a bucket of a thousand. -/
theorem claimrewards_paysShare_thousand :
    ∃ r, claimrewards Env.flat twoDays (fundedToken 1000) (fourUnpaid 1000) (N "alice") = .ok r ∧
      PaysShare 1000 4 4 (N "alice") r := by
  have hpaid : ∃ r, claimrewards Env.flat twoDays (fundedToken 1000) (fourUnpaid 1000)
      (N "alice") = .ok r ∧
        ∃ t', r.2.foldlM (execInline twoDays) (fundedToken 1000) = .ok t' ∧ True := by
    decide +kernel
  have hsupply : Token.getSupply (fundedToken 1000) coreSymbol.name = .ok (core 1000) := rfl
  have hprod : (fourUnpaid 1000).producers.find (N "alice") = some fourBlocks := by decide +kernel
  obtain ⟨r, hr, t', hsettled, -⟩ := hpaid
  exact ⟨r, hr, (claimrewards_paysShare_iff hsupply (by decide) (by decide) (by decide)
    (fourUnpaid_le 1000) hprod hr hsettled).mpr (by decide)⟩

/-- Out of a bucket of `2 ^ 62 - 1` the product for four blocks wraps to `-4`: nothing is sent,
and the bucket grows by one. -/
theorem claimrewards_wraps :
    (∀ k p, (fourUnpaid Asset.maxAmount).producers.find k = some p →
        p.unpaidBlocks ≤ (fourUnpaid Asset.maxAmount).global.totalUnpaidBlocks) ∧
      ∃ r, claimrewards Env.flat twoDays (fundedToken Asset.maxAmount)
          (fourUnpaid Asset.maxAmount) (N "alice") = .ok r ∧
        r.2 = [] ∧ r.1.global.perblockBucket.toInt = 2 ^ 62 ∧
        ¬ PaysShare (2 ^ 62 - 1) 4 4 (N "alice") r := by
  have hclaim : ∃ r, claimrewards Env.flat twoDays (fundedToken Asset.maxAmount)
      (fourUnpaid Asset.maxAmount) (N "alice") = .ok r ∧
        r.2 = [] ∧ r.1.global.perblockBucket.toInt = 2 ^ 62 := by
    decide +kernel
  obtain ⟨r, hr, hsent, hbucket⟩ := hclaim
  refine ⟨fourUnpaid_le _, r, hr, hsent, hbucket, fun hpays => ?_⟩
  have hleft := hpays.perblockBucket
  rw [hbucket] at hleft
  revert hleft
  decide

end Xidata.System
