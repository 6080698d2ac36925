import Xidata.System.PayBacking
import Xidata.System.Quiet
import Xidata.System.Settlement

/-!
The contract with its machine integers follows the pay over the integers as long
as nothing wraps around: every accepted action about producers is one of the
integer model, on what a chain has of the pay.  The results of the floating-point
expressions, which the integer model leaves open, are those the contract computes
with.  What holds of the pay in all runs of the model then holds of the contract.
-/

namespace Xidata.System.Pay

open Eosiolib

variable {env : Env} {c : Ctx}

/-! ### What a chain has of the pay -/

def viewToken (t : Token.State) : Token where
  supply := (t.stat.find coreSymbol.name).elim 0 fun st => st.supply.units
  maxSupply := (t.stat.find coreSymbol.name).elim 0 fun st => st.maxSupply.units
  issuer := (t.stat.find coreSymbol.name).elim self Token.CurrencyStats.issuer
  balance a := t.balance a coreSymbol.name

def viewProducer (p : ProducerInfo) : Producer where
  producerKey := p.producerKey
  isActive := p.isActive
  url := p.url
  unpaidBlocks := p.unpaidBlocks.toNat
  lastClaimTime := p.lastClaimTime.toNat
  location := p.location

def viewSystem (s : System.State) : State where
  producers := s.producers.mapRows viewProducer
  lastPervoteBucketFill := s.global.lastPervoteBucketFill.toNat
  pervoteBucket := s.global.pervoteBucket.toInt
  perblockBucket := s.global.perblockBucket.toInt
  totalUnpaidBlocks := s.global.totalUnpaidBlocks.toNat
  totalActivatedStake := s.global.totalActivatedStake.toInt
  totalProducerVoteWeight := s.global.totalProducerVoteWeight

def view (s : System.Chain) : Chain := ⟨viewSystem s.system, viewToken s.token⟩

@[simp] theorem viewSystem_find (s : System.State) (k : AccountName) :
    (viewSystem s).producers.find k = (s.producers.find k).map viewProducer :=
  OrderedTable.find_mapRows _ _ _

/-! ### The token -/

theorem viewToken_moved {t t' : Token.State} {from_ to_ : AccountName} {quantity : Asset}
    (hsymbol : quantity.symbol = coreSymbol) (h : Token.Transferred c t t' from_ to_ quantity) :
    viewToken t' = ((viewToken t).add from_ (-quantity.units)).add to_ quantity.units := by
  have hbalance : (viewToken t').balance =
      (((viewToken t).add from_ (-quantity.units)).add to_ quantity.units).balance := by
    funext a
    rw [Token.balance_add, Token.balance_add]
    show t'.balance a coreSymbol.name = t.balance a coreSymbol.name + _ + _
    rw [h.balance, hsymbol]
    simp only [and_true]
  rw [viewToken, h.stat]
  exact congrArg (Token.mk _ _ _) hbalance

theorem transfer_view {t t' : Token.State} {from_ to_ : AccountName} {quantity : Asset}
    {memo : String} (ht : Token.Conserved t) (hsymbol : quantity.symbol = coreSymbol)
    (h : Token.transfer c t from_ to_ quantity memo = .ok t') :
    transfer c (viewToken t) from_ to_ quantity.units memo = .ok (viewToken t') := by
  have hmoved := Token.transfer_transferred ht.rows h
  have hcovered := hmoved.covered
  rw [hsymbol] at hcovered
  simp only [Token.transfer, Rollback.bind_eq_ok, getRow_eq_ok, eosioAssert_eq_ok,
    requireAuth_eq_ok, exists_const] at h
  obtain ⟨-, -, -, _, -, -, -, -, hmemo, -⟩ := h
  simp only [transfer, Rollback.bind_eq_ok, eosioAssert_eq_ok, requireAuth_eq_ok, exists_const,
    Rollback.pure_eq_ok]
  exact ⟨hmoved.ne, hmoved.authorised, hmoved.isAccount, hmoved.pos, hmemo, hcovered,
    (viewToken_moved hsymbol hmoved).symm⟩

theorem viewToken_issued {t t' : Token.State} {quantity : Asset} {st : Token.CurrencyStats}
    (hsymbol : quantity.symbol = coreSymbol) (h : Token.Issued c t t' quantity st) :
    viewToken t' = { (viewToken t).add st.issuer quantity.units with
      supply := (viewToken t).supply + quantity.units } := by
  obtain ⟨supply, hunits, -, hstat⟩ := h.stat
  have hfound := h.found
  rw [hsymbol] at hfound hstat
  have hbalance : (viewToken t').balance = ((viewToken t).add st.issuer quantity.units).balance := by
    funext a
    rw [Token.balance_add]
    show t'.balance a coreSymbol.name = t.balance a coreSymbol.name + _
    rw [h.balance, hsymbol]
    simp only [and_true]
  have hnew : t'.stat.find coreSymbol.name = some { st with supply } := by
    rw [hstat, OrderedTable.find_set_self]
  have hold : (viewToken t).add st.issuer quantity.units =
      ⟨st.supply.units, st.maxSupply.units, st.issuer, (viewToken t').balance⟩ := by
    rw [hbalance, Token.add, viewToken, hfound]
    rfl
  rw [hold]
  simp only [viewToken, hnew, hfound, Option.elim_some, hunits]

theorem issue_view {t t' : Token.State} {to_ : AccountName} {quantity : Asset} {memo : String}
    (ht : Token.Conserved t) (hsymbol : quantity.symbol = coreSymbol)
    (h : Token.exec c t (.issue to_ quantity memo) = .ok t') :
    issue c (viewToken t) to_ quantity.units memo = .ok (viewToken t') := by
  simp only [Token.exec, Token.apply, Rollback.bind_eq_ok] at h
  obtain ⟨r, hr, h⟩ := h
  obtain ⟨st, hissued, hmemo, hsent⟩ := Token.issue_issued ht hr
  have hfound := hissued.found
  rw [hsymbol] at hfound
  have hissuer : (viewToken t).issuer = st.issuer := by
    rw [viewToken, hfound]
    rfl
  have hroom : quantity.units ≤ (viewToken t).maxSupply - (viewToken t).supply := by
    rw [viewToken, hfound]
    exact hissued.room
  simp only [issue, Rollback.bind_eq_ok, eosioAssert_eq_ok, requireAuth_eq_ok, exists_const]
  refine ⟨hmemo, hissuer ▸ hissued.authorised, hissued.pos, hroom, ?_⟩
  have hadded : ((viewToken t).add st.issuer quantity.units).issuer = st.issuer := hissuer
  rw [hissuer, ← viewToken_issued hsymbol hissued, hadded]
  rw [hsent] at h
  split at h
  · rename_i hne
    rw [if_pos hne]
    rw [List.foldlM_cons, Rollback.bind_eq_ok] at h
    obtain ⟨m, hm, h⟩ := h
    cases h
    exact transfer_view (hissued.conserved ht) hsymbol (Token.applyInline_transfer.mp hm)
  · rename_i heq
    rw [if_neg heq]
    cases h
    rfl

/-- The inline actions of a claim as those of the integer model. -/
inductive Sends : Token.Inline → Inline → Prop
  | issue {quantity : Asset} (auth : List AccountName) (to_ : AccountName) (memo : String)
      (h : quantity.symbol = coreSymbol) :
      Sends ⟨auth, .issue to_ quantity memo⟩ ⟨auth, .issue to_ quantity.units memo⟩
  | transfer {quantity : Asset} (from_ to_ : AccountName) (memo : String)
      (h : quantity.symbol = coreSymbol) :
      Sends (System.inlineTransfer from_ to_ quantity memo)
        (inlineTransfer from_ to_ quantity.units memo)

theorem Sends.execInline {t t' : Token.State} {i : Token.Inline} {j : Inline} (h : Sends i j)
    (ht : Token.Conserved t) (hexec : System.execInline c t i = .ok t') :
    execInline c (viewToken t) j = .ok (viewToken t') := by
  cases h with
  | issue auth to_ memo hsymbol => exact issue_view ht hsymbol hexec
  | transfer from_ to_ memo hsymbol =>
      exact transfer_view ht hsymbol (System.execInline_transfer.mp hexec)

theorem settle_view {t t' : Token.State} {sent : List Token.Inline} {sent' : List Inline}
    (hsent : List.Forall₂ Sends sent sent') (ht : Token.Conserved t)
    (h : sent.foldlM (System.execInline c) t = .ok t') :
    sent'.foldlM (execInline c) (viewToken t) = .ok (viewToken t') := by
  obtain ⟨u, hu, -, rfl⟩ := Rollback.foldlM_simulation (M := Sends)
    (R := fun t u => Token.Conserved t ∧ u = viewToken t) (g := execInline c)
    (fun t u i j m hR hij hm => ⟨viewToken m, hR.2 ▸ hij.execInline hR.1 hm,
      execInline_conserved hR.1 hm, rfl⟩) hsent ⟨ht, rfl⟩ h
  exact hu

/-- What is issued is positive, or the claim fails. -/
theorem settle_issue_pos {t t' : Token.State} {sent : List Token.Inline}
    (h : sent.foldlM (System.execInline c) t = .ok t') {auth : List AccountName}
    {to_ : AccountName} {quantity : Asset} {memo : String}
    (hmem : ⟨auth, .issue to_ quantity memo⟩ ∈ sent) : 0 < quantity.units := by
  induction sent generalizing t with
  | nil => cases hmem
  | cons i sent ih =>
      rw [List.foldlM_cons, Rollback.bind_eq_ok] at h
      obtain ⟨m, hm, h⟩ := h
      rcases List.mem_cons.mp hmem with rfl | hmem
      · simp only [System.execInline, Token.exec, Token.apply, Token.issue, Rollback.bind_eq_ok,
          eosioAssert_eq_ok, exists_const] at hm
        obtain ⟨_, ⟨-, -, _, -, _, -, -, hpos, -⟩, -⟩ := hm
        exact Int64.lt_iff_toInt_lt.mp hpos
      · exact ih h hmem

/-! ### Registrations and blocks -/

theorem regproducer_view {s s' : System.State} {producer : AccountName} {key : PublicKey}
    {url : String} {location : UInt16}
    (h : System.regproducer c s producer key url location = .ok s') :
    regproducer c (viewSystem s) producer key url location = .ok (viewSystem s') := by
  simp only [System.regproducer, Rollback.bind_eq_ok, eosioAssert_eq_ok, requireAuth_eq_ok,
    exists_const, Rollback.pure_eq_ok] at h
  obtain ⟨hurl, hkey, hauth, rfl⟩ := h
  simp only [regproducer, Rollback.bind_eq_ok, eosioAssert_eq_ok, requireAuth_eq_ok,
    exists_const, Rollback.pure_eq_ok, viewSystem_find]
  refine ⟨hurl, hkey, hauth, ?_⟩
  cases s.producers.find producer <;>
    simp only [viewSystem, OrderedTable.mapRows_set] <;> rfl

theorem unregprod_view {s s' : System.State} {producer : AccountName}
    (h : System.unregprod c s producer = .ok s') :
    unregprod c (viewSystem s) producer = .ok (viewSystem s') := by
  simp only [System.unregprod, Rollback.bind_eq_ok, getRow_eq_ok, requireAuth_eq_ok, exists_const,
    Rollback.pure_eq_ok] at h
  obtain ⟨hauth, info, hinfo, rfl⟩ := h
  simp only [unregprod, Rollback.bind_eq_ok, getRow_eq_ok, requireAuth_eq_ok, exists_const,
    Rollback.pure_eq_ok, viewSystem_find, hinfo, Option.map_some]
  refine ⟨hauth, _, rfl, ?_⟩
  simp only [viewSystem, OrderedTable.mapRows_set]
  rfl

theorem rmvproducer_view {s s' : System.State} {producer : AccountName}
    (h : System.rmvproducer c s producer = .ok s') :
    rmvproducer c (viewSystem s) producer = .ok (viewSystem s') := by
  simp only [System.rmvproducer, Rollback.bind_eq_ok, getRow_eq_ok, requireAuth_eq_ok,
    exists_const, Rollback.pure_eq_ok] at h
  obtain ⟨hauth, info, hinfo, rfl⟩ := h
  simp only [rmvproducer, Rollback.bind_eq_ok, getRow_eq_ok, requireAuth_eq_ok, exists_const,
    Rollback.pure_eq_ok, viewSystem_find, hinfo, Option.map_some]
  refine ⟨hauth, _, rfl, ?_⟩
  simp only [viewSystem, OrderedTable.mapRows_set]
  rfl

theorem startPervoteFill_view (c : Ctx) (s : System.State) :
    viewSystem (System.startPervoteFill c s) = startPervoteFill c (viewSystem s) := by
  have hview : (viewSystem s).lastPervoteBucketFill = 0 ↔ s.global.lastPervoteBucketFill = 0 :=
    Int.natCast_eq_zero.trans (UInt64.toNat_inj (b := 0))
  unfold System.startPervoteFill startPervoteFill
  by_cases hlast : s.global.lastPervoteBucketFill = 0
  · rw [if_pos hlast, if_pos (hview.mpr hlast)]
    rfl
  · rw [if_neg hlast, if_neg (mt hview.mp hlast)]

/-- A counter that counts one more. -/
theorem countBlock_view {s : System.State} (hs : Counted (viewSystem s))
    (hfits : s.global.totalUnpaidBlocks.toNat + 1 < 2 ^ 32) (producer : AccountName) :
    viewSystem (System.countBlock s producer) = countBlock (viewSystem s) producer := by
  have hsucc : ∀ x : UInt32, x.toNat ≤ s.global.totalUnpaidBlocks.toNat →
      (((x + 1).toNat : ℕ) : ℤ) = x.toNat + 1 := fun x hx => by
    have hone : (1 : UInt32).toNat = 1 := rfl
    rw [UInt32.toNat_add, hone, Nat.mod_eq_of_lt (by omega), Nat.cast_add, Nat.cast_one]
  unfold System.countBlock countBlock
  rw [viewSystem_find]
  cases hfind : s.producers.find producer with
  | none => rfl
  | some info =>
      have hview : (viewSystem s).producers.find producer = some (viewProducer info) := by
        rw [viewSystem_find, hfind, Option.map_some]
      have hle := hs.unpaid_le hview
      have hinfo := hsucc info.unpaidBlocks (Int.ofNat_le.mp hle)
      have htotal := hsucc s.global.totalUnpaidBlocks le_rfl
      simp only [Option.map_some, viewSystem, OrderedTable.mapRows_set, viewProducer, hinfo, htotal]

/-- The schedule has no part in the pay. -/
theorem updateElectedProducers_view (env : Env) (c : Ctx) (s : System.State) (blockTime : UInt32) :
    viewSystem (updateElectedProducers env c s blockTime) = viewSystem s := by
  simp only [updateElectedProducers]
  split
  · rfl
  · split <;> rfl

theorem closeAuction_view (c : Ctx) (s : System.State) (timestamp : UInt32) :
    viewSystem (closeAuction c s timestamp) = viewSystem s := by
  unfold closeAuction
  split
  · rfl
  · split <;> rfl

theorem onblock_view {s s' : System.State} {timestamp : UInt32} {producer : AccountName}
    (hs : Counted (viewSystem s)) (hfits : s.global.totalUnpaidBlocks.toNat + 1 < 2 ^ 32)
    (h : System.onblock env c s timestamp producer = .ok s') :
    onblock c (viewSystem s) producer = .ok (viewSystem s') := by
  simp only [System.onblock, Rollback.bind_eq_ok, requireAuth_eq_ok, exists_const] at h
  obtain ⟨hauth, h⟩ := h
  simp only [onblock, Rollback.bind_eq_ok, requireAuth_eq_ok, exists_const]
  refine ⟨hauth, ?_⟩
  split at h
  · rename_i hstake
    have hview : (viewSystem s).totalActivatedStake < minActivatedStake.toInt :=
      Int64.lt_iff_toInt_lt.mp hstake
    cases h
    rw [if_pos hview]
    rfl
  · rename_i hstake
    have hview : ¬ (viewSystem s).totalActivatedStake < minActivatedStake.toInt := fun hlt =>
      hstake (Int64.lt_iff_toInt_lt.mpr hlt)
    have hstart := startPervoteFill_view c s
    have htotal : (System.startPervoteFill c s).global.totalUnpaidBlocks =
        s.global.totalUnpaidBlocks := by
      unfold System.startPervoteFill
      split <;> rfl
    have hcount := countBlock_view (hstart ▸ (hs.startPervoteFill c).1) (htotal ▸ hfits) producer
    rw [if_neg hview, ← hstart, ← hcount]
    split at h
    · split at h <;> cases h
      · rw [closeAuction_view, updateElectedProducers_view]
        rfl
      · rw [updateElectedProducers_view]
        rfl
    · cases h
      rfl

/-! ### Claims -/

/-- The numbers of a step stay in their types: no counter and no bucket is at its
limit, the clock does not run backwards, and the product a producer's pay is
computed from is not cut off. -/
structure Fits (env : Env) (c : Ctx) (token : Token.State) (s : System.State) : Prop where
  totalUnpaidBlocks : s.global.totalUnpaidBlocks.toNat + 1 < 2 ^ 32
  perblockBucket : s.global.perblockBucket.toInt ≤ 2 ^ 62
  pervoteBucket : -2 ^ 62 ≤ s.global.pervoteBucket.toInt ∧ s.global.pervoteBucket.toInt ≤ 2 ^ 62
  lastFill : s.global.lastPervoteBucketFill ≤ c.currentTime
  lastClaim : ∀ k p, s.producers.find k = some p → p.lastClaimTime ≤ c.currentTime
  blockPay : ∀ k p filled, s.producers.find k = some p →
    System.fillBuckets env c token s = .ok filled →
    filled.1.global.perblockBucket.toInt * p.unpaidBlocks.toNat < 2 ^ 63

/-- What the machine splits, the integers split the same way. -/
structure SplitOf (newTokens : Int64) : Prop where
  toProducers : (newTokens / 5).toInt = newTokens.toInt.tdiv 5
  toSavings : (newTokens - newTokens / 5).toInt = newTokens.toInt - newTokens.toInt.tdiv 5
  toPerBlockPay : (newTokens / 5 / 4).toInt = (newTokens.toInt.tdiv 5).tdiv 4
  toPerVotePay : (newTokens / 5 - newTokens / 5 / 4).toInt =
    newTokens.toInt.tdiv 5 - (newTokens.toInt.tdiv 5).tdiv 4
  perBlock_bounds : 0 ≤ (newTokens.toInt.tdiv 5).tdiv 4 ∧
    (newTokens.toInt.tdiv 5).tdiv 4 ≤ newTokens.toInt
  perVote_bounds : 0 ≤ newTokens.toInt.tdiv 5 - (newTokens.toInt.tdiv 5).tdiv 4 ∧
    newTokens.toInt.tdiv 5 - (newTokens.toInt.tdiv 5).tdiv 4 ≤ newTokens.toInt

theorem splitOf {newTokens : Int64} (h : 0 ≤ newTokens.toInt) : SplitOf newTokens := by
  have hlt := newTokens.toInt_lt
  have hproducers : (newTokens / 5).toInt = newTokens.toInt.tdiv 5 :=
    Int64.toInt_div_of_ne_right _ _ (by decide)
  have hblock : (newTokens / 5 / 4).toInt = (newTokens.toInt.tdiv 5).tdiv 4 :=
    (Int64.toInt_div_of_ne_right _ _ (by decide)).trans (by rw [hproducers]; rfl)
  have hfive := Int.tdiv_eq_ediv_of_nonneg (b := 5) h
  have hfour := Int.tdiv_eq_ediv_of_nonneg (a := newTokens.toInt.tdiv 5) (b := 4) (by omega)
  refine ⟨hproducers, ?_, hblock, ?_, by omega, by omega⟩
  · rw [toInt_sub_of_bounds (by omega) (by omega), hproducers]
  · rw [toInt_sub_of_bounds (by omega) (by omega), hproducers, hblock]

theorem fillBuckets_view {token : Token.State} {s : System.State}
    {r : System.State × List Token.Inline} (hfits : Fits env c token s)
    (hpos : ∀ auth to_ quantity memo, ⟨auth, .issue to_ quantity memo⟩ ∈ r.2 →
      0 < Asset.units quantity)
    (h : System.fillBuckets env c token s = .ok r) :
    ∃ newTokens : ℕ, (fillBuckets c (viewSystem s) newTokens).1 = viewSystem r.1 ∧
      List.Forall₂ Sends r.2 (fillBuckets c (viewSystem s) newTokens).2 := by
  have hclock := UInt64.le_iff_toNat_le.mp hfits.lastFill
  simp only [System.fillBuckets, Rollback.bind_eq_ok] at h
  obtain ⟨supply, -, h⟩ := h
  generalize env.newTokens supply.amount
    (c.currentTime - s.global.lastPervoteBucketFill) = newTokens at h
  have hdue : (0 < c.currentTime - s.global.lastPervoteBucketFill ∧
      0 < s.global.lastPervoteBucketFill) ↔
      0 < (c.currentTime.toNat : ℤ) - (viewSystem s).lastPervoteBucketFill ∧
        0 < (viewSystem s).lastPervoteBucketFill := by
    rw [UInt64.lt_iff_toNat_lt, UInt64.lt_iff_toNat_lt, UInt64.toNat_sub_of_le _ _ hfits.lastFill]
    show 0 < _ ∧ 0 < _ ↔ 0 < (_ : ℤ) - (_ : ℕ) ∧ 0 < ((_ : ℕ) : ℤ)
    omega
  refine ⟨newTokens.toInt.toNat, ?_⟩
  rw [fillBuckets]
  split at h
  · rename_i hnow
    rw [if_pos (hdue.mp hnow)]
    simp only [Rollback.bind_eq_ok, Asset.make_eq_ok, Rollback.pure_eq_ok] at h
    obtain ⟨_, ⟨hissued, -, rfl⟩, _, ⟨-, -, rfl⟩, _, ⟨-, -, rfl⟩, _, ⟨-, -, rfl⟩, rfl⟩ := h
    have hunits : 0 < newTokens.toInt := hpos _ _ _ _ List.mem_cons_self
    have hrange : newTokens.toInt ≤ 2 ^ 62 - 1 := (Asset.isAmountWithinRange_iff.mp hissued).2
    have hcast : (newTokens.toInt.toNat : ℤ) = newTokens.toInt := Int.toNat_of_nonneg hunits.le
    have hsplit := splitOf hunits.le
    obtain ⟨hblock, hblock'⟩ := hsplit.perBlock_bounds
    obtain ⟨hvote, hvote'⟩ := hsplit.perVote_bounds
    have hlow := s.global.perblockBucket.le_toInt
    have hperblock := hfits.perblockBucket
    obtain ⟨hlow', hpervote⟩ := hfits.pervoteBucket
    have hfilled : (s.global.perblockBucket + newTokens / 5 / 4).toInt =
        s.global.perblockBucket.toInt + (newTokens.toInt.tdiv 5).tdiv 4 := by
      rw [← hsplit.toPerBlockPay] at hblock hblock' ⊢
      exact toInt_add_of_bounds (by omega) (by omega)
    have hfilled' : (s.global.pervoteBucket + (newTokens / 5 - newTokens / 5 / 4)).toInt =
        s.global.pervoteBucket.toInt +
          (newTokens.toInt.tdiv 5 - (newTokens.toInt.tdiv 5).tdiv 4) := by
      rw [← hsplit.toPerVotePay] at hvote hvote' ⊢
      exact toInt_add_of_bounds (by omega) (by omega)
    simp only [hcast]
    refine ⟨?_, ?_⟩
    · simp only [viewSystem, hfilled, hfilled']
    · rw [← hsplit.toPerVotePay, ← hsplit.toSavings, ← hsplit.toPerBlockPay]
      exact .cons (.issue _ _ _ rfl) (.cons (.transfer _ _ _ rfl) (.cons (.transfer _ _ _ rfl)
        (.cons (.transfer _ _ _ rfl) .nil)))
  · rename_i hnow
    cases h
    rw [if_neg (mt hdue.mpr hnow)]
    exact ⟨rfl, .nil⟩

/-- A quotient by a count, which is not negative as an integer of the machine. -/
theorem toInt_div_count (x : Int64) (count : UInt32) :
    (if 0 < count then x / count.toUInt64.toInt64 else 0).toInt = x.toInt.tdiv count.toNat := by
  have hcount := toInt_toUInt64 count
  have hne : count.toUInt64.toInt64 ≠ -1 := by
    intro h
    have hneg := congrArg Int64.toInt h
    rw [hcount, show (-1 : Int64).toInt = -1 from rfl] at hneg
    omega
  split
  · rw [Int64.toInt_div_of_ne_right _ _ hne, hcount]
  · rename_i h
    have hzero : count.toNat = 0 :=
      Nat.eq_zero_of_not_pos fun hpos => h (UInt32.lt_iff_toNat_lt.mpr hpos)
    rw [hzero, Nat.cast_zero, Int.tdiv_zero]
    rfl

theorem perBlockPay_view {s : System.State} {prod : ProducerInfo}
    (hbucket : 0 ≤ s.global.perblockBucket.toInt)
    (hfits : s.global.perblockBucket.toInt * prod.unpaidBlocks.toNat < 2 ^ 63) :
    (if 0 < s.global.totalUnpaidBlocks then
        (s.global.perblockBucket * prod.unpaidBlocks.toUInt64.toInt64) /
          s.global.totalUnpaidBlocks.toUInt64.toInt64
      else 0).toInt = (viewSystem s).perBlockPay (viewProducer prod) := by
  have hunpaid := toInt_toUInt64 prod.unpaidBlocks
  have hmul : (s.global.perblockBucket * prod.unpaidBlocks.toUInt64.toInt64).toInt =
      s.global.perblockBucket.toInt * prod.unpaidBlocks.toNat := by
    have hnonneg := mul_nonneg hbucket (Int.natCast_nonneg prod.unpaidBlocks.toNat)
    rw [← hunpaid] at hfits hnonneg ⊢
    exact toInt_mul_of_bounds (by omega) hfits
  have htotal : (viewSystem s).totalUnpaidBlocks = s.global.totalUnpaidBlocks.toNat := rfl
  rw [toInt_div_count, hmul, State.perBlockPay, htotal]
  split
  · rfl
  · rename_i h
    have hzero : s.global.totalUnpaidBlocks.toNat = 0 := by omega
    rw [hzero, Nat.cast_zero, Int.tdiv_zero]

theorem perVotePay_view (s : System.State) (result : Int64) :
    (let share := if 0 < s.global.totalProducerVoteWeight then result else 0
      if share < minPervoteDailyPay then 0 else share).toInt =
      (viewSystem s).perVotePay result.toInt.toNat := by
  have hmin : minPervoteDailyPay.toInt = 1000000 := rfl
  have hzero : (0 : Int64).toInt = 0 := rfl
  have hweight : (viewSystem s).totalProducerVoteWeight = s.global.totalProducerVoteWeight := rfl
  simp only [State.perVotePay, hweight, Int64.lt_iff_toInt_lt]
  split_ifs <;> omega

theorem payFrom_view {bucket owner : AccountName} {amount : Int64} {memo : String}
    {sent : List Token.Inline} (h : System.payFrom bucket owner amount memo = .ok sent) :
    List.Forall₂ Sends sent (payFrom bucket owner amount.toInt memo) ∧
      amount.toInt ≤ 2 ^ 62 - 1 := by
  rw [System.payFrom] at h
  rw [payFrom]
  split at h
  · rename_i hpos
    simp only [Rollback.bind_eq_ok, Asset.make_eq_ok, Rollback.pure_eq_ok] at h
    obtain ⟨_, ⟨hrange, -, rfl⟩, rfl⟩ := h
    have hunits : 0 < amount.toInt := Int64.lt_iff_toInt_lt.mp hpos
    rw [if_pos hunits]
    exact ⟨.cons (.transfer _ _ _ rfl) .nil, (Asset.isAmountWithinRange_iff.mp hrange).2⟩
  · rename_i hpos
    have hle : ¬ 0 < amount.toInt := fun h => hpos (Int64.lt_iff_toInt_lt.mpr h)
    cases h
    rw [if_neg hle]
    exact ⟨.nil, by omega⟩

/-- The tables after a claim that takes what is there. -/
theorem paid_view (c : Ctx) {s : System.State} (owner : AccountName) {prod : ProducerInfo}
    {blockPay votePay : Int64}
    (hblock : 0 ≤ blockPay.toInt ∧ blockPay.toInt ≤ s.global.perblockBucket.toInt)
    (hvote : 0 ≤ votePay.toInt ∧ votePay.toInt ≤ 2 ^ 62 - 1)
    (hbucket : -2 ^ 62 ≤ s.global.pervoteBucket.toInt)
    (hunpaid : prod.unpaidBlocks.toNat ≤ s.global.totalUnpaidBlocks.toNat) :
    viewSystem { s with
      global := { s.global with
        pervoteBucket := s.global.pervoteBucket - votePay
        perblockBucket := s.global.perblockBucket - blockPay
        totalUnpaidBlocks := s.global.totalUnpaidBlocks - prod.unpaidBlocks }
      producers := s.producers.set owner
        { prod with lastClaimTime := c.currentTime, unpaidBlocks := 0 } } =
    { viewSystem s with
      pervoteBucket := (viewSystem s).pervoteBucket - votePay.toInt
      perblockBucket := (viewSystem s).perblockBucket - blockPay.toInt
      totalUnpaidBlocks := (viewSystem s).totalUnpaidBlocks - (viewProducer prod).unpaidBlocks
      producers := (viewSystem s).producers.set owner
        { viewProducer prod with lastClaimTime := c.currentTime.toNat, unpaidBlocks := 0 } } := by
  have hvoteMax := s.global.pervoteBucket.toInt_lt
  have hblockMax := s.global.perblockBucket.toInt_lt
  have hpervote : (s.global.pervoteBucket - votePay).toInt =
      s.global.pervoteBucket.toInt - votePay.toInt :=
    toInt_sub_of_bounds (by omega) (by omega)
  have hperblock : (s.global.perblockBucket - blockPay).toInt =
      s.global.perblockBucket.toInt - blockPay.toInt :=
    toInt_sub_of_bounds (by omega) (by omega)
  have htotal : ((s.global.totalUnpaidBlocks - prod.unpaidBlocks).toNat : ℤ) =
      s.global.totalUnpaidBlocks.toNat - prod.unpaidBlocks.toNat := by
    rw [UInt32.toNat_sub_of_le _ _ (UInt32.le_iff_toNat_le.mpr hunpaid)]
    omega
  simp only [viewSystem, OrderedTable.mapRows_set, hpervote, hperblock, htotal]
  rfl

theorem claimrewards_view {token t' : Token.State} {s : System.State} {owner : AccountName}
    {r : System.State × List Token.Inline} (ht : Token.Conserved token)
    (hs : Counted (viewSystem s)) (hfits : Fits env c token s)
    (h : System.claimrewards env c token s owner = .ok r)
    (hsettled : r.2.foldlM (System.execInline c) token = .ok t') :
    ∃ newTokens share sent, claimrewards c (viewSystem s) owner newTokens share =
      .ok (viewSystem r.1, sent) ∧ List.Forall₂ Sends r.2 sent := by
  simp only [System.claimrewards, Rollback.bind_eq_ok, getRow_eq_ok, requireAuth_eq_ok,
    eosioAssert_eq_ok, exists_const, Rollback.pure_eq_ok] at h
  obtain ⟨hauth, prod, hprod, hactive, hstake, hday, filled, hfilled, blockPay, hblock, votePay,
    hvote, rfl⟩ := h
  simp only [List.foldlM_append, Rollback.bind_eq_ok] at hsettled
  obtain ⟨t₂, ⟨t₁, h₁, -⟩, -⟩ := hsettled
  obtain ⟨newTokens, hstate, hsends⟩ :=
    fillBuckets_view hfits (fun _ _ _ _ hmem => settle_issue_pos h₁ hmem) hfilled
  obtain ⟨f, hf, -, hbuckets, -⟩ := fillBuckets_filled (settle_view hsends ht h₁)
  rw [hstate] at hbuckets
  have hview : (viewSystem s).producers.find owner = some (viewProducer prod) := by
    rw [viewSystem_find, hprod, Option.map_some]
  have hbucket : 0 ≤ (viewSystem filled.1).perblockBucket := by
    rw [hbuckets.perblockBucket]
    exact add_nonneg hs.perblock_nonneg hf.toPerBlockPay
  have hunpaid : (viewProducer prod).unpaidBlocks ≤ (viewSystem filled.1).totalUnpaidBlocks :=
    hbuckets.totalUnpaidBlocks ▸ hs.unpaid_le hview
  have hblockPay := perBlockPay_view hbucket (hfits.blockPay owner prod filled hprod hfilled)
  have hvotePay := perVotePay_view filled.1 (env.perVoteShare filled.1.global.pervoteBucket
    prod.totalVotes filled.1.global.totalProducerVoteWeight)
  obtain ⟨hpay, hpay'⟩ := perBlockPay_bounds hbucket (hs.unpaid_nonneg owner _ hview) hunpaid
  have hshare := perVotePay_nonneg (viewSystem filled.1) (env.perVoteShare
    filled.1.global.pervoteBucket prod.totalVotes
    filled.1.global.totalProducerVoteWeight).toInt.toNat
  obtain ⟨hblockSent, -⟩ := payFrom_view hblock
  obtain ⟨hvoteSent, hvoteMax⟩ := payFrom_view hvote
  have hbound : -2 ^ 62 ≤ (viewSystem filled.1).pervoteBucket := by
    rw [hbuckets.pervoteBucket]
    exact hfits.pervoteBucket.1.trans (le_add_of_nonneg_right hf.toPerVotePay)
  have hclock := UInt64.le_iff_toNat_le.mp (hfits.lastClaim owner prod hprod)
  have hdue : (usecondsPerDay.toNat : ℤ) <
      c.currentTime.toNat - (viewProducer prod).lastClaimTime := by
    rw [UInt64.lt_iff_toNat_lt, UInt64.toNat_sub_of_le _ _ (hfits.lastClaim owner prod hprod)]
      at hday
    show (usecondsPerDay.toNat : ℤ) < _ - ((_ : ℕ) : ℤ)
    omega
  have hpaid := paid_view c owner
    ⟨hblockPay ▸ hpay, hblockPay ▸ hpay'⟩ ⟨hvotePay ▸ hshare, hvoteMax⟩ hbound
    (Int.ofNat_le.mp hunpaid)
  refine ⟨newTokens, (env.perVoteShare filled.1.global.pervoteBucket prod.totalVotes
    filled.1.global.totalProducerVoteWeight).toInt.toNat, _, ?_,
    List.rel_append (List.rel_append hsends hblockSent) hvoteSent⟩
  have hactivated : minActivatedStake.toInt ≤ (viewSystem s).totalActivatedStake :=
    Int64.le_iff_toInt_le.mp hstake
  simp only [claimrewards, Rollback.bind_eq_ok, getRow_eq_ok, requireAuth_eq_ok,
    eosioAssert_eq_ok, exists_const, Rollback.pure_eq_ok]
  refine ⟨hauth, _, hview, hactive, hactivated, hdue, ?_⟩
  rw [hpaid, hstate, hblockPay, ← hvotePay]

/-! ### Runs of the contract -/

/-- An action about producers and the one of the integer model it is: a claim comes
with the results of its floating-point expressions. -/
inductive Follows : System.Action → Action → Prop
  | onblock (timestamp : UInt32) (producer : AccountName) :
      Follows (.onblock timestamp producer) (.onblock producer)
  | regproducer (producer : AccountName) (producerKey : PublicKey) (url : String)
      (location : UInt16) :
      Follows (.regproducer producer producerKey url location)
        (.regproducer producer producerKey url location)
  | unregprod (producer : AccountName) : Follows (.unregprod producer) (.unregprod producer)
  | rmvproducer (producer : AccountName) : Follows (.rmvproducer producer) (.rmvproducer producer)
  | claimrewards (owner : AccountName) (newTokens share : ℕ) :
      Follows (.claimrewards owner) (.claimrewards owner newTokens share)

/-- The events of the contract that have to do with the pay. -/
def IsPayEvent (e : System.Event) : Prop := ∃ a b, e.call = .system a ∧ Follows a b

def FollowsEvent (e : System.Event) (e' : Event) : Prop :=
  ∃ a, e.call = .system a ∧ Follows a e'.action

def FitsStep (env : Env) (s : System.Chain) (e : System.Event) (_ : System.Chain) : Prop :=
  ∀ sys, construct s.token s.system = .ok sys → Fits env (e.ctx s) s.token sys

theorem construct_view {token : Token.State} {s s' : System.State}
    (h : construct token s = .ok s') : viewSystem s' = viewSystem s := by
  obtain rfl | ⟨-, m, rfl, -⟩ := construct_cases h <;> rfl

theorem apply_view {token t' : Token.State} {s : System.State} {a : System.Action} {b : Action}
    {r : System.State × List Token.Inline} (hab : Follows a b) (ht : Token.Conserved token)
    (hs : Counted (viewSystem s)) (hfits : Fits env c token s)
    (h : System.apply env c token s a = .ok r)
    (hsettled : r.2.foldlM (System.execInline c) token = .ok t') :
    ∃ b' sent, Follows a b' ∧ apply c (viewSystem s) b' = .ok (viewSystem r.1, sent) ∧
      List.Forall₂ Sends r.2 sent := by
  cases hab with
  | onblock timestamp producer =>
      obtain ⟨s', hs', rfl⟩ := Rollback.map_eq_ok.mp h
      exact ⟨_, [], .onblock timestamp producer,
        Rollback.map_eq_ok.mpr ⟨_, onblock_view hs hfits.totalUnpaidBlocks hs', rfl⟩, .nil⟩
  | regproducer producer producerKey url location =>
      obtain ⟨s', hs', rfl⟩ := Rollback.map_eq_ok.mp h
      exact ⟨_, [], .regproducer producer producerKey url location,
        Rollback.map_eq_ok.mpr ⟨_, regproducer_view hs', rfl⟩, .nil⟩
  | unregprod producer =>
      obtain ⟨s', hs', rfl⟩ := Rollback.map_eq_ok.mp h
      exact ⟨_, [], .unregprod producer,
        Rollback.map_eq_ok.mpr ⟨_, unregprod_view hs', rfl⟩, .nil⟩
  | rmvproducer producer =>
      obtain ⟨s', hs', rfl⟩ := Rollback.map_eq_ok.mp h
      exact ⟨_, [], .rmvproducer producer,
        Rollback.map_eq_ok.mpr ⟨_, rmvproducer_view hs', rfl⟩, .nil⟩
  | claimrewards owner _ _ =>
      obtain ⟨newTokens, share, sent, hclaim, hsent⟩ := claimrewards_view ht hs hfits h hsettled
      exact ⟨_, sent, .claimrewards owner newTokens share, hclaim, hsent⟩

/-- What a chain and its view have in common along a run. -/
structure Viewed (s : System.Chain) (t : Chain) : Prop where
  view : t = view s
  conserved : Token.Conserved s.token
  counted : Counted t.system

theorem exec_view {s s' : System.Chain} {t : Chain} {e : System.Event} (hR : Viewed s t)
    (he : IsPayEvent e) (h : System.exec env s e = .ok s') (hfits : FitsStep env s e s') :
    ∃ e' t', FollowsEvent e e' ∧ exec t e' = .ok t' ∧ Viewed s' t' := by
  obtain ⟨a, b, hcall, hab⟩ := he
  obtain ⟨rfl, hconserved, hcounted⟩ := hR
  have hconserved' := exec_tokenConserved hconserved h
  rw [System.exec, hcall] at h
  simp only [Rollback.bind_eq_ok, Rollback.pure_eq_ok] at h
  obtain ⟨sys, hsys, r, hr, token, htoken, rfl⟩ := h
  have hsame := construct_view hsys
  obtain ⟨b', sent, hab', happly, hsent⟩ :=
    apply_view hab hconserved (hsame ▸ hcounted) (hfits sys hsys) hr htoken
  have hexec : exec (view s) ⟨e.ctx s, b'⟩ = .ok (view ⟨token, r.1, s.accounts⟩) := by
    simp only [exec, Rollback.bind_eq_ok, Rollback.pure_eq_ok]
    exact ⟨_, hsame ▸ happly, _, settle_view hsent hconserved htoken, rfl⟩
  exact ⟨_, _, ⟨a, hcall, hab'⟩, hexec, rfl, hconserved', (hcounted.exec hexec).1⟩

/-- Every run of the contract in which the numbers fit follows one of the integer
model, event by event. -/
theorem run_view {s : System.Chain} {es : List System.Event} (hes : ∀ e ∈ es, IsPayEvent e)
    (hfits : Rollback.Along (System.exec env) (FitsStep env) s es)
    (hs : Token.Conserved s.token) (hcounted : Counted (viewSystem s.system)) :
    ∃ es', List.Forall₂ FollowsEvent (Rollback.accepted (System.exec env) s es) es' ∧
      view (System.run env s es) = run (view s) es' := by
  obtain ⟨es', hes', hrun⟩ := Rollback.run_simulation
    (fun _ _ _ _ hR he h hfits => exec_view hR he h hfits) hes hfits ⟨rfl, hs, hcounted⟩
  exact ⟨es', hes', hrun.view.symm⟩

theorem Follows.claimant {a : System.Action} {b : Action} {owner : AccountName}
    (h : Follows a b) (hb : owner ∈ b.claimant) : a = .claimrewards owner := by
  cases h with
  | claimrewards owner' _ _ =>
      cases hb
      rfl
  | _ => cases hb

/-- An account that claims no pay in a run of the contract claims none in the run
that it follows. -/
theorem claimant_of_follows {es : List System.Event} {es' : List Event} {owner : AccountName}
    (hes : List.Forall₂ FollowsEvent es es')
    (hother : ∀ e ∈ es, e.call ≠ .system (.claimrewards owner)) :
    ∀ e' ∈ es', owner ∉ e'.action.claimant := by
  induction hes with
  | nil => exact fun e' he' => (by cases he')
  | cons h _ ih =>
      intro e' he' howner
      rcases List.mem_cons.mp he' with rfl | he'
      · obtain ⟨a, hcall, hab⟩ := h
        exact hother _ List.mem_cons_self (hcall.trans (congrArg _ (hab.claimant howner)))
      · exact ih (fun e he => hother e (List.mem_cons_of_mem _ he)) e' he' howner

/-- The pay of the contract is backed as that of the integer model is. -/
theorem run_backed {s : System.Chain} {es : List System.Event} (hes : ∀ e ∈ es, IsPayEvent e)
    (hfits : Rollback.Along (System.exec env) (FitsStep env) s es)
    (hs : Token.Conserved s.token) (hfresh : Fresh (view s)) :
    Counted (viewSystem (System.run env s es).system) ∧
      ((∀ e ∈ Rollback.accepted (System.exec env) s es,
        e.call ≠ .system (.claimrewards bpayAccount)) → BpayBacked (view (System.run env s es))) ∧
      ((∀ e ∈ Rollback.accepted (System.exec env) s es,
        e.call ≠ .system (.claimrewards vpayAccount)) →
          VpayBacked (view (System.run env s es))) := by
  obtain ⟨es', hes', hview⟩ := run_view hes hfits hs hfresh.counted
  rw [hview]
  refine ⟨?_, fun hother => ?_, fun hother => ?_⟩
  · have hcounted := (run_payEffect (I := fun _ => True) (A := fun _ => True)
      (fun _ _ _ _ _ _ => trivial) (fun e (_ : e ∈ es') => trivial) hfresh.counted trivial).1.1
    rwa [← hview] at hcounted
  · exact (run_payEffect (fun _ _ _ he heffect hI => heffect.bpayBacked hI he)
      (claimant_of_follows hes' hother) hfresh.counted
      (hfresh.bpay.trans hfresh.perblockBucket.symm)).1.2
  · exact (run_payEffect (fun _ _ _ he heffect hI => heffect.vpayBacked hI he)
      (claimant_of_follows hes' hother) hfresh.counted
      ⟨hfresh.vpay.trans hfresh.pervoteBucket.symm, hfresh.pervoteBucket.ge⟩).1.2

end Xidata.System.Pay
