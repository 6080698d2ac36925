import Xidata.System.Quiet

/-!
The closing of name auctions.  With a block at most one auction is closed, the
first in the order of `by_high_bid`.  The negated bid is compared as an
unsigned number, so that an open auction comes the earlier the higher its bid;
but a closed one, whose bid is negative, comes before all of them.
-/

namespace Xidata.System

open Eosiolib

variable {env : Env} {c : Ctx} {s s' : State} {timestamp : UInt32} {producer : AccountName}

/-! ### The order of the auctions -/

namespace NameBid

variable {a b : NameBid}

/-- The key of an open bid wraps around, that of a closed one does not. -/
theorem byHighBid_toNat (b : NameBid) :
    (b.byHighBid.toNat : ℤ) =
      if 0 < b.highBid.toInt then 2 ^ 64 - b.highBid.toInt else -b.highBid.toInt := by
  have hkey : b.byHighBid.toNat = (2 ^ 64 - b.highBid.toBitVec.toNat) % 2 ^ 64 :=
    BitVec.toNat_neg b.highBid.toBitVec
  have hbid : b.highBid.toInt = if 2 * b.highBid.toBitVec.toNat < 2 ^ 64 then
      (b.highBid.toBitVec.toNat : ℤ) else (b.highBid.toBitVec.toNat : ℤ) - (2 ^ 64 : ℕ) :=
    BitVec.toInt_eq_toNat_cond b.highBid.toBitVec
  have hlt := b.highBid.toBitVec.isLt
  rw [hkey, hbid]
  omega

/-- Closing an auction negates its bid. -/
theorem toInt_neg_highBid (h : 0 < b.highBid.toInt) :
    (-b.highBid).toInt = -b.highBid.toInt := by
  have hlt := Int64.toInt_lt b.highBid
  rw [Int64.toInt_neg]
  exact Asset.bmod_eq_self (by omega) (by omega)

theorem byHighBid_lt_of_closed (ha : ¬ 0 < a.highBid.toInt) (hb : 0 < b.highBid.toInt) :
    a.byHighBid < b.byHighBid := by
  have hle := Int64.le_toInt a.highBid
  have hlt := Int64.toInt_lt b.highBid
  have hkey := byHighBid_toNat a
  have hkey' := byHighBid_toNat b
  rw [if_neg ha] at hkey
  rw [if_pos hb] at hkey'
  rw [UInt64.lt_iff_toNat_lt]
  omega

theorem byHighBid_le_iff (ha : 0 < a.highBid.toInt) (hb : 0 < b.highBid.toInt) :
    a.byHighBid ≤ b.byHighBid ↔ b.highBid.toInt ≤ a.highBid.toInt := by
  have hkey := byHighBid_toNat a
  have hkey' := byHighBid_toNat b
  rw [if_pos ha] at hkey
  rw [if_pos hb] at hkey'
  rw [UInt64.le_iff_toNat_le]
  omega

end NameBid

/-! ### One block -/

/-- What decides about the closing of an auction agrees. -/
structure SameAuctions (s s' : State) : Prop where
  namebids : s'.namebids = s.namebids
  lastNameClose : s'.global.lastNameClose = s.global.lastNameClose
  threshActivatedStakeTime :
    s'.global.threshActivatedStakeTime = s.global.threshActivatedStakeTime

theorem SameAuctions.trans {s₁ s₂ s₃ : State} (h : SameAuctions s₁ s₂)
    (h' : SameAuctions s₂ s₃) : SameAuctions s₁ s₃ where
  namebids := h'.namebids.trans h.namebids
  lastNameClose := h'.lastNameClose.trans h.lastNameClose
  threshActivatedStakeTime := h'.threshActivatedStakeTime.trans h.threshActivatedStakeTime

theorem countBlock_auctions (s : State) (producer : AccountName) :
    SameAuctions s (countBlock (startPervoteFill c s) producer) ∧
      (countBlock (startPervoteFill c s) producer).global.lastProducerScheduleUpdate =
        s.global.lastProducerScheduleUpdate := by
  unfold countBlock startPervoteFill
  split <;> split <;> exact ⟨⟨rfl, rfl, rfl⟩, rfl⟩

theorem updateElectedProducers_auctions (env : Env) (c : Ctx) (s : State) (blockTime : UInt32) :
    SameAuctions s (updateElectedProducers env c s blockTime) := by
  simp only [updateElectedProducers]
  split
  · exact ⟨rfl, rfl, rfl⟩
  · split <;> exact ⟨rfl, rfl, rfl⟩

/-- An auction is closed, or the auctions stay as they are. -/
theorem closeAuction_cases (c : Ctx) (s : State) (timestamp : UInt32) :
    closeAuction c s timestamp = s ∨ ∃ name b, s.namebids.find name = some b ∧ 0 < b.highBid ∧
      closeAuction c s timestamp = { s with
        global := { s.global with lastNameClose := timestamp }
        namebids := s.namebids.set name { b with highBid := -b.highBid } } := by
  unfold closeAuction
  split
  · exact .inl rfl
  · rename_i name b l hindex
    split
    · rename_i hopen
      have hmem : (name, b) ∈ s.namebids.index NameBid.byHighBid := by
        rw [hindex]
        exact List.mem_cons_self ..
      exact .inr ⟨name, b, OrderedTable.mem_index.mp hmem, hopen.1, rfl⟩
    · exact .inl rfl

theorem onblock_cases (h : onblock env c s timestamp producer = .ok s') :
    s'.namebids = s.namebids ∨ ∃ name b, s.namebids.find name = some b ∧ 0 < b.highBid ∧
      s'.namebids = s.namebids.set name { b with highBid := -b.highBid } := by
  simp only [onblock, Rollback.bind_eq_ok, requireAuth_eq_ok, exists_const] at h
  obtain ⟨-, h⟩ := h
  split at h
  · cases h
    exact .inl rfl
  · have hcount := (countBlock_auctions (c := c) s producer).1
    split at h
    · have helect := hcount.trans (updateElectedProducers_auctions env c _ timestamp)
      split at h
      · rcases closeAuction_cases c (updateElectedProducers env c
          (countBlock (startPervoteFill c s) producer) timestamp) timestamp with
          hsame | ⟨name, b, hfind, hopen, hclose⟩
        · rw [Rollback.pure_eq_ok, hsame] at h
          exact .inl (h ▸ helect.namebids)
        · rw [Rollback.pure_eq_ok, hclose] at h
          rw [helect.namebids] at hfind
          refine .inr ⟨name, b, hfind, hopen, ?_⟩
          rw [← h]
          exact congrArg (fun t => OrderedTable.set t name _) helect.namebids
      · cases h
        exact .inl helect.namebids
    · cases h
      exact .inl hcount.namebids

/-! ### The best open bid -/

/-- With this block an auction may be closed: the schedule is updated, a day has
passed since an auction was closed, and two weeks since enough stake was
activated. -/
@[mk_iff] structure ClosingDue (c : Ctx) (s : State) (timestamp : UInt32) : Prop where
  authorised : self ∈ c.auth
  activated : minActivatedStake ≤ s.global.totalActivatedStake
  minute : s.global.lastProducerScheduleUpdate.toNat + 120 < timestamp.toNat
  day : s.global.lastNameClose.toNat + blocksPerDay.toNat < timestamp.toNat
  threshold : 0 < s.global.threshActivatedStakeTime
  fortnight : s.global.threshActivatedStakeTime.toNat + 14 * usecondsPerDay.toNat <
    c.currentTime.toNat

/-- The open bid with the largest amount, among equals the first by name. -/
@[mk_iff] structure BestBid (t : OrderedTable AccountName NameBid) (name : AccountName) (b : NameBid) :
    Prop where
  row : t.find name = some b
  isOpen : 0 < b.highBid
  best : ∀ p ∈ t.rows, 0 < p.2.highBid →
    p.2.highBid < b.highBid ∨ p.2.highBid = b.highBid ∧ name ≤ p.1

instance (c : Ctx) (s : State) (timestamp : UInt32) : Decidable (ClosingDue c s timestamp) :=
  decidable_of_iff _ (closingDue_iff ..).symm

instance (t : OrderedTable AccountName NameBid) (name : AccountName) (b : NameBid) :
    Decidable (BestBid t name b) := decidable_of_iff _ (bestBid_iff ..).symm

/-- Exactly this auction was closed. -/
structure ClosesBid (s s' : State) (timestamp : UInt32) (name : AccountName) (b : NameBid) :
    Prop where
  closed : s'.namebids.find name = some { b with highBid := -b.highBid }
  others : ∀ name', name' ≠ name → s'.namebids.find name' = s.namebids.find name'
  lastNameClose : s'.global.lastNameClose = timestamp

/-- In a block with which an auction may be closed, all comes down to
`closeAuction`. -/
theorem onblock_due (env : Env) (producer : AccountName) (hdue : ClosingDue c s timestamp) :
    ∃ m, SameAuctions s m ∧
      onblock env c s timestamp producer = .ok (closeAuction c m timestamp) := by
  obtain ⟨hcount, hupdate⟩ := countBlock_auctions (c := c) s producer
  have helect := updateElectedProducers_auctions env c
    (countBlock (startPervoteFill c s) producer) timestamp
  have hsame := hcount.trans helect
  have hminute : 120 < timestamp - s.global.lastProducerScheduleUpdate := by
    have hlt := hdue.minute
    rw [UInt32.lt_iff_toNat_lt, UInt32.toNat_sub_of_le _ _ (UInt32.le_iff_toNat_le.mpr (by omega))]
    have : (120 : UInt32).toNat = 120 := rfl
    omega
  have hday : blocksPerDay < timestamp - s.global.lastNameClose := by
    have hlt := hdue.day
    rw [UInt32.lt_iff_toNat_lt, UInt32.toNat_sub_of_le _ _ (UInt32.le_iff_toNat_le.mpr (by omega))]
    omega
  refine ⟨_, hsame, ?_⟩
  have hactivated := Int64.not_lt.mpr hdue.activated
  rw [← hupdate] at hminute
  rw [← hsame.lastNameClose] at hday
  unfold onblock
  rw [requireAuth_eq_ok (u := ()).mpr hdue.authorised, Rollback.ok_bind, if_neg hactivated]
  simp only [if_pos hminute, if_pos hday]
  rfl

/-- An auction that is closed already keeps all others open. -/
theorem closeAuction_blocked {name : AccountName} {b : NameBid}
    (hb : s.namebids.find name = some b) (hclosed : ¬ 0 < b.highBid.toInt) :
    closeAuction c s timestamp = s := by
  unfold closeAuction
  split
  · rfl
  · rename_i name' b' l hindex
    refine if_neg fun hopen => ?_
    have hopen : 0 < b'.highBid.toInt := Int64.lt_iff_toInt_lt.mp hopen.1
    have hle := OrderedTable.index_head hindex (q := (name, b)) hb
    have hlt := NameBid.byHighBid_lt_of_closed hclosed hopen
    rcases Prod.Lex.toLex_le_toLex.mp hle with hkey | ⟨hkey, -⟩
    · exact lt_asymm hkey hlt
    · exact hlt.ne hkey.symm

theorem closeAuction_head {name : AccountName} {b : NameBid} {l : List (AccountName × NameBid)}
    (hindex : s.namebids.index NameBid.byHighBid = (name, b) :: l) (hopen : 0 < b.highBid)
    (hold : b.lastBidTime.toNat + usecondsPerDay.toNat < c.currentTime.toNat)
    (hthreshold : 0 < s.global.threshActivatedStakeTime)
    (hfortnight : s.global.threshActivatedStakeTime.toNat + 14 * usecondsPerDay.toNat <
      c.currentTime.toNat) :
    closeAuction c s timestamp = { s with
      global := { s.global with lastNameClose := timestamp }
      namebids := s.namebids.set name { b with highBid := -b.highBid } } := by
  have hday : b.lastBidTime < c.currentTime - usecondsPerDay := by
    rw [UInt64.lt_iff_toNat_lt, UInt64.toNat_sub_of_le _ _ (UInt64.le_iff_toNat_le.mpr (by omega))]
    omega
  have hweeks : 14 * usecondsPerDay < c.currentTime - s.global.threshActivatedStakeTime := by
    have hmul : (14 * usecondsPerDay).toNat = 14 * usecondsPerDay.toNat := by decide +kernel
    rw [UInt64.lt_iff_toNat_lt, UInt64.toNat_sub_of_le _ _ (UInt64.le_iff_toNat_le.mpr (by omega)),
      hmul]
    omega
  unfold closeAuction
  rw [hindex]
  exact if_pos ⟨hopen, hday, hthreshold, hweeks⟩

/-- When all auctions are open, the best bid is the first. -/
theorem BestBid.head {t : OrderedTable AccountName NameBid} {name : AccountName} {b : NameBid}
    (hbest : BestBid t name b) (hopen : ∀ p ∈ t.rows, 0 < p.2.highBid) :
    ∃ l, t.index NameBid.byHighBid = (name, b) :: l := by
  have hmem : (name, b) ∈ t.index NameBid.byHighBid := OrderedTable.mem_index.mpr hbest.row
  cases hindex : t.index NameBid.byHighBid with
  | nil =>
      rw [hindex] at hmem
      cases hmem
  | cons p l =>
      have hp : p ∈ t.rows := by
        have hp : p ∈ t.index NameBid.byHighBid := by
          rw [hindex]
          exact List.mem_cons_self ..
        exact OrderedTable.find_eq_some.mp (OrderedTable.mem_index.mp hp)
      have hle := Prod.Lex.toLex_le_toLex.mp (OrderedTable.index_head hindex (q := (name, b)) hbest.row)
      have hkey := NameBid.byHighBid_le_iff (Int64.lt_iff_toInt_lt.mp (hopen p hp))
        (Int64.lt_iff_toInt_lt.mp hbest.isOpen)
      have hbid := hkey.mp (hle.elim le_of_lt fun h => h.1.le)
      rcases hbest.best p hp (hopen p hp) with hlt | ⟨heq, hname⟩
      · have hlt := Int64.lt_iff_toInt_lt.mp hlt
        omega
      · have hname' : p.1 ≤ name := hle.elim (fun hlt => absurd hlt ?_) And.right
        · have hfind : t.find p.1 = some p.2 := OrderedTable.find_eq_some.mpr hp
          have hsame : p.1 = name := le_antisymm hname' hname
          rw [hsame, hbest.row] at hfind
          exact ⟨l, congrArg (· :: l) (Prod.ext hsame (Option.some.inj hfind).symm)⟩
        · rw [NameBid.byHighBid, NameBid.byHighBid, heq]
          exact lt_irrefl _

/-- The best open bid, older than a day, is closed by a block with which an
auction may be closed if and only if no auction is closed already. -/
theorem onblock_closesBid_iff (env : Env) (c : Ctx) (s : State) (timestamp : UInt32)
    (producer name : AccountName) (b : NameBid) (hdue : ClosingDue c s timestamp)
    (hbest : BestBid s.namebids name b)
    (hold : b.lastBidTime.toNat + usecondsPerDay.toNat < c.currentTime.toNat) :
    (∃ s', onblock env c s timestamp producer = .ok s' ∧ ClosesBid s s' timestamp name b) ↔
      ∀ p ∈ s.namebids.rows, 0 < p.2.highBid := by
  obtain ⟨m, hsame, honblock⟩ := onblock_due env producer hdue
  rw [honblock]
  refine ⟨fun ⟨s', hs', hcloses⟩ p hp => ?_, fun hopen => ?_⟩
  · by_contra hclosed
    rw [Int64.lt_iff_toInt_lt] at hclosed
    have hp : m.namebids.find p.1 = some p.2 := by
      rw [hsame.namebids]
      exact OrderedTable.find_eq_some.mpr hp
    rw [closeAuction_blocked hp hclosed] at hs'
    have hrow := hcloses.closed
    rw [← Except.ok.inj hs', hsame.namebids, hbest.row] at hrow
    have hpos : 0 < b.highBid.toInt := Int64.lt_iff_toInt_lt.mp hbest.isOpen
    have hneg := NameBid.toInt_neg_highBid hpos
    have hsame : b.highBid = -b.highBid := congrArg NameBid.highBid (Option.some.inj hrow)
    rw [← hsame] at hneg
    omega
  · obtain ⟨l, hindex⟩ := hbest.head hopen
    refine ⟨_, rfl, ?_⟩
    rw [closeAuction_head (hsame.namebids ▸ hindex) hbest.isOpen hold
      (hsame.threshActivatedStakeTime ▸ hdue.threshold)
      (hsame.threshActivatedStakeTime ▸ hdue.fortnight), hsame.namebids]
    exact ⟨OrderedTable.find_set_self .., fun name' hne => OrderedTable.find_set_of_ne _ hne _, rfl⟩

/-- Alice has staked enough for the activation and bids for two names. -/
def twoBids : List Event :=
  genesis [stakeAccount, namesAccount, N "alice"] (N "alice") ++
    [⟨[N "alice"], usecondsPerDay, .system (.delegatebw (N "alice") (N "alice")
        (core 1000000000000) (core 1000000000000) false)⟩,
      ⟨[N "alice"], usecondsPerDay, .system (.voteproducer (N "alice") 0 [])⟩,
      ⟨[N "alice"], usecondsPerDay, .system (.bidname (N "alice") (N "short") (core 20))⟩,
      ⟨[N "alice"], usecondsPerDay, .system (.bidname (N "alice") (N "name") (core 10))⟩]

/-- After twenty days the higher bid is closed. -/
theorem onblock_closesBid_twoBids :
    let s := (run .flat {} twoBids).system
    ∃ s', onblock .flat ⟨[self], 20 * usecondsPerDay, ∅⟩ s (20 * blocksPerDay) (N "alice") =
        .ok s' ∧
      ClosesBid s s' (20 * blocksPerDay) (N "short")
        ⟨N "short", N "alice", 20, usecondsPerDay⟩ := by
  refine (onblock_closesBid_iff .flat _ _ _ _ _ _ ?_ ?_ ?_).mpr ?_ <;> decide +kernel

/-- Two days later the other one is due, but the name has not been claimed, and
nothing is closed. -/
theorem unclaimed_name_blocks_closing :
    let s := (run .flat {} (twoBids ++
      [⟨[self], 20 * usecondsPerDay, .system (.onblock (20 * blocksPerDay) (N "alice"))⟩])).system
    let c : Ctx := ⟨[self], 22 * usecondsPerDay, ∅⟩
    let b : NameBid := ⟨N "name", N "alice", 10, usecondsPerDay⟩
    ClosingDue c s (22 * blocksPerDay) ∧ BestBid s.namebids (N "name") b ∧
      b.lastBidTime.toNat + usecondsPerDay.toNat < c.currentTime.toNat ∧
      ¬ ∃ s', onblock .flat c s (22 * blocksPerDay) (N "alice") = .ok s' ∧
        ClosesBid s s' (22 * blocksPerDay) (N "name") b := by
  intro s c b
  refine ⟨by decide +kernel, by decide +kernel, by decide +kernel, fun ⟨s', hs', hcloses⟩ => ?_⟩
  have hblocked : ∀ r, onblock .flat c s (22 * blocksPerDay) (N "alice") = .ok r →
      r.namebids.find (N "name") = some b := by decide +kernel
  have hrow := hcloses.closed
  rw [hblocked s' hs'] at hrow
  revert hrow
  decide +kernel

end Xidata.System
