import Mathlib.Algebra.Order.Group.Unbundled.Int
import Xidata.System.NameClosing
import Xidata.System.StakeConservation

/-!
Name auctions.  A name is bid for, each bid paying back the one before it, until
a block closes its auction; then the highest bidder may create the account, and
the auction is gone.  The coins of `eosio.names` are what has been bid, and what
was paid for the names that have been claimed.
-/

namespace Xidata.System

open Eosiolib

variable {env : Env} {c : Ctx} {bidder name : AccountName} {bid : Asset} {b : NameBid}

/-! ### Bids -/

/-- A name and a bid for it that pass the checks which need no auction. -/
structure BidOk (c : Ctx) (name : AccountName) (bid : Asset) : Prop where
  suffix : nameSuffix name = name
  short : name &&& 0x1f0 = 0
  free : name ∉ c.accounts
  symbol : bid.symbol = coreSymbol
  positive : 0 < bid.units

/-- A bid that beats the one recorded by more than a tenth of it. -/
structure Outbids (bidder : AccountName) (bid : Asset) (b : NameBid) : Prop where
  isOpen : 0 < b.highBid.toInt
  raise : b.highBid.toInt + b.highBid.toInt / 10 < bid.units
  bidder : b.highBidder ≠ bidder

theorem outbids_of_checks (hpos : 0 < bid.units) (hopen : 0 < b.highBid)
    (hraise : b.highBid / 10 < bid.amount - b.highBid) (hne : b.highBidder ≠ bidder) :
    Outbids bidder bid b := by
  have hopen : 0 < b.highBid.toInt := Int64.lt_iff_toInt_lt.mp hopen
  have hle := Int64.toInt_lt b.highBid
  have hlt : bid.units < 2 ^ 63 := Int64.toInt_lt bid.amount
  have hdiv : (b.highBid / 10).toInt = b.highBid.toInt / 10 := by
    rw [Int64.toInt_div_of_ne_right _ _ (by decide), Int.tdiv_eq_ediv_of_nonneg hopen.le]
    rfl
  have hsub : (bid.amount - b.highBid).toInt = bid.units - b.highBid.toInt := by
    rw [Int64.toInt_sub]
    exact Asset.bmod_eq_self (by simp only [Asset.units] at *; omega)
      (by simp only [Asset.units] at *; omega)
  rw [Int64.lt_iff_toInt_lt, hdiv, hsub] at hraise
  exact ⟨hopen, by omega, hne⟩

/-- What an accepted bid is sent with: its payment, and the bid before it back. -/
def bidTransfers (bidder name : AccountName) (bid : Asset) : Option NameBid → List Token.Inline
  | none => [inlineTransfer bidder namesAccount bid ("bid name " ++ nameToString name)]
  | some b => [inlineTransfer bidder namesAccount bid ("bid name " ++ nameToString name),
      inlineTransfer namesAccount b.highBidder ⟨b.highBid, coreSymbol⟩
        ("refund bid on name " ++ nameToString name)]

theorem bidname_cases {s : State} {r : State × List Token.Inline}
    (h : bidname c s bidder name bid = .ok r) :
    BidOk c name bid ∧ (∀ b ∈ s.namebids.find name, Outbids bidder bid b) ∧
      r.1.namebids = s.namebids.set name
        ⟨(s.namebids.find name).elim name NameBid.newname, bidder, bid.amount, c.currentTime⟩ ∧
      r.2 = bidTransfers bidder name bid (s.namebids.find name) := by
  simp only [bidname, Rollback.bind_eq_ok, eosioAssert_eq_ok, requireAuth_eq_ok,
    exists_const] at h
  obtain ⟨-, hsuffix, -, -, hshort, hfree, hsymbol, hpos, h⟩ := h
  have hpos : 0 < bid.units := Int64.lt_iff_toInt_lt.mp hpos
  refine ⟨⟨hsuffix, hshort, hfree, hsymbol, hpos⟩, ?_⟩
  cases hrow : s.namebids.find name with
  | none =>
      rw [hrow] at h
      cases h
      exact ⟨fun _ hb => (by cases hb), rfl, rfl⟩
  | some b =>
      simp only [hrow, Rollback.bind_eq_ok, eosioAssert_eq_ok, exists_const, Asset.make_eq_ok,
        Rollback.pure_eq_ok] at h
      obtain ⟨hopen, hraise, hne, back, ⟨-, -, rfl⟩, rfl⟩ := h
      refine ⟨fun b' hb' => ?_, rfl, rfl⟩
      cases hb'
      exact outbids_of_checks hpos hopen hraise hne

/-! ### Claims -/

theorem hasDot_of_short (h : name &&& 0x1f0 = 0) : hasDot name := by
  have hfirst : (name >>> 4) &&& 0x1f = 0 := by
    have hmask : (0x1f : UInt64) = (0x1f0 : UInt64) >>> 4 := by decide
    rw [hmask, ← UInt64.shiftRight_and, h]
    rfl
  have hkeep : ∀ (l : List ℕ) (x : UInt64), (l.foldl (fun (acc : UInt64 × Bool) _ =>
      (acc.1 >>> 5, acc.2 || acc.1 &&& 0x1f = 0)) (x, true)).2 = true := fun l => by
    induction l with
    | nil => exact fun _ => rfl
    | cons _ l ih => exact fun x => ih (x >>> 5)
  have hrange : List.range 12 = 0 :: (List.range 11).map Nat.succ := List.range_succ_eq_map
  rw [hasDot, hrange, List.foldl_cons, hfirst]
  exact hkeep _ _

/-- A name that is in an auction is created by the contract's account, which the
policy exempts, or by the highest bidder of the closed auction. -/
theorem claimName_cases {s : State} {creator : AccountName}
    {namebids : OrderedTable AccountName NameBid} (hsuffix : nameSuffix name = name)
    (hshort : name &&& 0x1f0 = 0) (hrow : s.namebids.find name = some b)
    (h : claimName s creator name = .ok namebids) :
    creator = self ∧ namebids = s.namebids ∨
      creator = b.highBidder ∧ b.highBid < 0 ∧ namebids = s.namebids.erase name := by
  unfold claimName at h
  split at h
  · simp only [hrow, Rollback.bind_eq_ok, getRow_eq_ok, eosioAssert_eq_ok, exists_const,
      Rollback.pure_eq_ok] at h
    obtain ⟨_, hb, hbidder, hclosed, rfl⟩ := h
    cases hb
    exact .inr ⟨hbidder.symm, hclosed, rfl⟩
  · rename_i hexempt
    cases h
    exact .inl ⟨not_not.mp fun hne => hexempt ⟨hne, hasDot_of_short hshort⟩, rfl⟩

/-! ### What an event does to the auctions -/

/-- What a transfer of `x` does to the coins of `owner`. -/
def moved (from_ to_ : AccountName) (x : ℤ) (owner : AccountName) : ℤ :=
  (if owner = from_ then -x else 0) + if owner = to_ then x else 0

theorem flow_eq_moved {from_ to_ owner : AccountName} {quantity : Asset} {memo : String}
    (h : quantity.symbol = coreSymbol) :
    flow owner coreSymbol.name (inlineTransfer from_ to_ quantity memo) =
      moved from_ to_ quantity.units owner := by
  simp only [flow_inlineTransfer, moved, h, and_true]

/-- What a bid and the return of the one before it do to the coins of `owner`. -/
def bidMoved (bidder : AccountName) (bid : Asset) (row : Option NameBid) (owner : AccountName) :
    ℤ :=
  moved bidder namesAccount bid.units owner +
    row.elim 0 fun b => moved namesAccount b.highBidder b.highBid.toInt owner

/-- The name of a recorded auction is one that can be bid for. -/
structure BidRow (name : AccountName) (b : NameBid) : Prop where
  newname : b.newname = name
  suffix : nameSuffix name = name
  short : name &&& 0x1f0 = 0

def BidRows (s : State) : Prop := ∀ name b, s.namebids.find name = some b → BidRow name b

/-- A successful event, by what it does to the auctions. -/
inductive AuctionEffect (s s' : Chain) (e : Event) : Prop
  | bid {bidder name : AccountName} {bid : Asset}
      (hcall : e.call = .system (.bidname bidder name bid)) (hok : BidOk (e.ctx s) name bid)
      (hraise : ∀ b ∈ s.system.namebids.find name, Outbids bidder bid b)
      (hne : bidder ≠ namesAccount ∧
        ∀ b ∈ s.system.namebids.find name, namesAccount ≠ b.highBidder)
      (hbids : s'.system.namebids =
        s.system.namebids.set name ⟨name, bidder, bid.amount, e.time⟩)
      (hcoins : ∀ owner, s'.coins owner =
        s.coins owner + bidMoved bidder bid (s.system.namebids.find name) owner)
  | close {timestamp : UInt32} {producer name : AccountName} {b : NameBid}
      (hcall : e.call = .system (.onblock timestamp producer))
      (hrow : s.system.namebids.find name = some b) (hopen : 0 < b.highBid.toInt)
      (hbids : s'.system.namebids =
        s.system.namebids.set name { b with highBid := -b.highBid })
  | claim {name : AccountName} {b : NameBid} (hcall : e.call = .newaccount b.highBidder name)
      (hrow : s.system.namebids.find name = some b) (hclosed : b.highBid.toInt < 0)
      (hbids : s'.system.namebids = s.system.namebids.erase name)
  | create {creator name : AccountName} (hcall : e.call = .newaccount creator name)
      (hexempt : creator = self ∨ s.system.namebids.find name = none)
      (hbids : s'.system.namebids = s.system.namebids)
  | other (hbid : ∀ bidder name bid, e.call ≠ .system (.bidname bidder name bid))
      (hnew : ∀ creator name, e.call ≠ .newaccount creator name)
      (hbids : s'.system.namebids = s.system.namebids)

theorem construct_namebids {token : Token.State} {s s' : State}
    (h : construct token s = .ok s') : s'.namebids = s.namebids := by
  rcases construct_cases h with rfl | ⟨-, m, rfl, -⟩ <;> rfl

theorem Booked.namebids {s s' : State} (h : Booked s s') : s'.namebids = s.namebids := by
  obtain ⟨m, reserved, stake, account, res, rfl, -⟩ := h
  exact (bookRam_frame ..).2.2

/-- Only bids and blocks write auctions. -/
theorem apply_namebids {token : Token.State} {s : State} {a : Action}
    {r : State × List Token.Inline} (hs : StakeRows s) (h : apply env c token s a = .ok r)
    (hbid : ∀ bidder name bid, a ≠ .bidname bidder name bid)
    (hblock : ∀ timestamp producer, a ≠ .onblock timestamp producer) :
    r.1.namebids = s.namebids := by
  cases apply_effect h with
  | stake ha => exact (changeVoterStake_frame (ha.changed hs h).2.2.voter).namebids
  | refund he =>
      obtain ⟨req, amount, -, -, -, rfl⟩ := refund_spec hs he
      rfl
  | buyram he => exact (buyram_booked he).1.namebids
  | buyrambytes _ _ he => exact (buyram_booked he).1.namebids
  | sellram he => exact (sellram_booked he).1.namebids
  | setram he =>
      obtain ⟨-, -, -, m, -, hr⟩ := setram_cases he
      rw [hr]
  | voteproducer he => exact (voteproducer_frame he).namebids
  | regproxy he => exact (regproxy_frame he).namebids
  | bidname => exact absurd rfl (hbid _ _ _)
  | onblock => exact absurd rfl (hblock _ _)
  | quiet _ _ hbids => exact hbids

theorem newaccount_auctions {s s' : Chain} {e : Event} {creator : AccountName} {sys system : State}
    (hrows : BidRows s.system) (hcall : e.call = .newaccount creator name)
    (hsys : sys.namebids = s.system.namebids) (h : newaccount sys creator name = .ok system)
    (hs' : s'.system = system) : AuctionEffect s s' e := by
  obtain ⟨namebids, hclaim, -, rfl⟩ := newaccount_cases h
  have hbids : s'.system.namebids = namebids := by rw [hs']
  cases hrow : s.system.namebids.find name with
  | none =>
      have hsame : namebids = sys.namebids := by
        unfold claimName at hclaim
        split at hclaim
        · split at hclaim
          · rw [hsys, hrow] at hclaim
            cases hclaim
          · simp only [Rollback.bind_eq_ok, Rollback.pure_eq_ok] at hclaim
            obtain ⟨_, -, rfl⟩ := hclaim
            rfl
        · cases hclaim
          rfl
      exact .create hcall (.inr hrow) (hbids.trans (hsame.trans hsys))
  | some b =>
      have hb := hrows name b hrow
      rcases claimName_cases hb.suffix hb.short (hsys ▸ hrow) hclaim with
        ⟨hself, hsame⟩ | ⟨rfl, hclosed, herase⟩
      · exact .create hcall (.inl hself) (hbids.trans (hsame.trans hsys))
      · exact .claim hcall hrow (Int64.lt_iff_toInt_lt.mp hclosed)
          (hbids.trans (herase.trans (congrArg (fun t => OrderedTable.erase t name) hsys)))

/-- The transfers of an accepted bid, once they have gone through. -/
theorem bidTransfers_settled {t t' : Token.State} {row : Option NameBid} (ht : Token.Conserved t)
    (hsymbol : bid.symbol = coreSymbol)
    (h : (bidTransfers bidder name bid row).foldlM (execInline c) t = .ok t') :
    (bidder ≠ namesAccount ∧ ∀ b ∈ row, namesAccount ≠ b.highBidder) ∧
      ∀ owner, t'.balance owner coreSymbol.name =
        t.balance owner coreSymbol.name + bidMoved bidder bid row owner := by
  have htransfers : ∀ i ∈ bidTransfers bidder name bid row, IsTransfer i := fun i hi => by
    cases row <;> simp only [bidTransfers, List.mem_cons, List.not_mem_nil, or_false] at hi
    · exact hi ▸ isTransfer_inlineTransfer ..
    · rcases hi with rfl | rfl <;> exact isTransfer_inlineTransfer ..
  have hsettled := settled_of_ok ht htransfers h
  refine ⟨?_, fun owner => ?_⟩
  · cases row with
    | none =>
        simp only [bidTransfers, List.foldlM_cons, Rollback.bind_eq_ok] at h
        obtain ⟨m, hm, -⟩ := h
        exact ⟨ne_of_execInline ht hm, fun b hb => by cases hb⟩
    | some b =>
        simp only [bidTransfers, List.foldlM_cons, Rollback.bind_eq_ok] at h
        obtain ⟨m, hm, m', hm', -⟩ := h
        refine ⟨ne_of_execInline ht hm, fun b' hb' => ?_⟩
        cases hb'
        exact ne_of_execInline (execInline_conserved ht hm) hm'
  · rw [hsettled.balance]
    cases row with
    | none =>
        rw [bidTransfers, List.map_singleton, List.sum_singleton, flow_eq_moved hsymbol]
        exact congrArg _ (add_zero _).symm
    | some b =>
        rw [bidTransfers, List.map_cons, List.map_singleton, List.sum_cons, List.sum_singleton,
          flow_eq_moved hsymbol, flow_eq_moved rfl]
        rfl

theorem exec_auctions {s s' : Chain} {e : Event} (ht : Token.Conserved s.token)
    (hs : StakeRows s.system) (hrows : BidRows s.system) (h : exec env s e = .ok s') :
    AuctionEffect s s' e := by
  rcases exec_cases h with ⟨action, token, hcall, -, rfl⟩ |
    ⟨creator, newact, accounts, sys, system, hcall, -, hsys, hsystem, rfl⟩ |
    ⟨action, sys, r, token, hcall, hsys, hr, hsettle, rfl⟩
  · exact .other (fun _ _ _ he => by rw [hcall] at he; cases he)
      (fun _ _ he => by rw [hcall] at he; cases he) rfl
  · exact newaccount_auctions hrows hcall (construct_namebids hsys) hsystem rfl
  · have hbids := construct_namebids hsys
    by_cases hbid : ∃ bidder name bid, action = .bidname bidder name bid
    · obtain ⟨bidder, name, bid, rfl⟩ := hbid
      obtain ⟨hok, hraise, hset, hsent⟩ := bidname_cases hr
      rw [hsent, hbids] at hsettle
      obtain ⟨hne, hcoins⟩ := bidTransfers_settled ht hok.symbol hsettle
      rw [hbids] at hraise hset
      have hnewname : (s.system.namebids.find name).elim name NameBid.newname = name := by
        cases hrow : s.system.namebids.find name with
        | none => rfl
        | some b => exact (hrows name b hrow).newname
      rw [hnewname] at hset
      exact .bid hcall hok hraise hne hset hcoins
    · by_cases hblock : ∃ timestamp producer, action = .onblock timestamp producer
      · obtain ⟨timestamp, producer, rfl⟩ := hblock
        obtain ⟨sys', hsys', rfl⟩ := Rollback.map_eq_ok.mp hr
        rcases onblock_cases hsys' with hsame | ⟨name, b, hrow, hopen, hset⟩
        · exact .other (fun _ _ _ he => by rw [hcall] at he; cases he)
            (fun _ _ he => by rw [hcall] at he; cases he) (hsame.trans hbids)
        · rw [hbids] at hrow hset
          exact .close hcall hrow (Int64.lt_iff_toInt_lt.mp hopen) hset
      · have hsame := apply_namebids (hs.construct hsys) hr
          (fun bidder name bid he => hbid ⟨bidder, name, bid, he⟩)
          fun timestamp producer he => hblock ⟨timestamp, producer, he⟩
        refine .other (fun bidder name bid he => ?_) (fun _ _ he => ?_) (hsame.trans hbids)
        · rw [hcall] at he
          exact hbid ⟨bidder, name, bid, Call.system.inj he⟩
        · rw [hcall] at he
          cases he

/-! ### What every event keeps -/

theorem BidRows.exec {s s' : Chain} {e : Event} (hrows : BidRows s.system)
    (h : AuctionEffect s s' e) : BidRows s'.system := by
  intro name' b' hb'
  cases h with
  | bid hcall hok hraise hne hbids =>
      rw [hbids, OrderedTable.find_set] at hb'
      split at hb'
      · rename_i he
        cases hb'
        exact ⟨he.symm, he ▸ hok.suffix, he ▸ hok.short⟩
      · exact hrows name' b' hb'
  | close hcall hrow hopen hbids =>
      rw [hbids, OrderedTable.find_set] at hb'
      split at hb'
      · rename_i he
        cases hb'
        have hb := hrows _ _ hrow
        exact ⟨hb.newname.trans he.symm, he ▸ hb.suffix, he ▸ hb.short⟩
      · exact hrows name' b' hb'
  | claim hcall hrow hclosed hbids =>
      rw [hbids, OrderedTable.find_erase] at hb'
      split at hb'
      · cases hb'
      · exact hrows name' b' hb'
  | create _ _ hbids | other _ _ hbids =>
      rw [hbids] at hb'
      exact hrows name' b' hb'

/-- All that has been bid and not been claimed. -/
def State.bids (s : State) : ℤ := s.namebids.sum fun _ b => |b.highBid.toInt|

/-- What is recorded for one name. -/
def State.bidFor (s : State) (name : AccountName) : ℤ :=
  (s.namebids.find name).elim 0 fun b => |b.highBid.toInt|

/-- What the auction brought that a step claimed. -/
def claimed (s : Chain) (e : Event) (s' : Chain) : ℤ :=
  match e.call with
  | .newaccount _ name => s.system.bidFor name - s'.system.bidFor name
  | _ => 0

/-- The condition on a step: no call but a bid touches the coins of
`eosio.names`. -/
def NamesStep (s : Chain) (e : Event) (s' : Chain) : Prop :=
  match e.call with
  | .system (.bidname ..) => True
  | _ => s'.coins namesAccount = s.coins namesAccount

instance (s : Chain) (e : Event) (s' : Chain) : Decidable (NamesStep s e s') := by
  unfold NamesStep
  split <;> infer_instance

theorem moved_to {from_ to_ : AccountName} {x : ℤ} (h : from_ ≠ to_) :
    moved from_ to_ x to_ = x := by
  rw [moved, if_neg h.symm, if_pos rfl, zero_add]

theorem moved_from {from_ to_ : AccountName} {x : ℤ} (h : from_ ≠ to_) :
    moved from_ to_ x from_ = -x := by
  rw [moved, if_pos rfl, if_neg h, add_zero]

theorem State.bids_of_set {s s' : State} {b : NameBid}
    (h : s'.namebids = s.namebids.set name b) :
    s'.bids = s.bids + (|b.highBid.toInt| - s.bidFor name) := by
  rw [State.bids, h, OrderedTable.sum_set_sub]
  rfl

/-- The coins of `eosio.names`, less what is bid, grow by what is claimed. -/
theorem AuctionEffect.backed {s s' : Chain} {e : Event} (h : AuctionEffect s s' e)
    (hstep : NamesStep s e s') :
    s'.coins namesAccount - s'.system.bids =
      s.coins namesAccount - s.system.bids + claimed s e s' := by
  cases h with
  | @bid bidder name bid hcall hok hraise hne hbids hcoins =>
      have hclaimed : claimed s e s' = 0 := by rw [claimed, hcall]
      have hpos : 0 < bid.units := hok.positive
      have hbid : |bid.amount.toInt| = bid.units := abs_of_pos hpos
      have hback : bidMoved bidder bid (s.system.namebids.find name) namesAccount =
          bid.units - s.system.bidFor name := by
        rw [bidMoved, moved_to hne.1, State.bidFor]
        cases hrow : s.system.namebids.find name with
        | none => exact (add_zero _).trans (sub_zero _).symm
        | some b =>
            rw [Option.elim_some, Option.elim_some, moved_from (hne.2 b hrow),
              abs_of_pos (hraise b hrow).isOpen, sub_eq_add_neg]
      rw [State.bids_of_set hbids, hcoins, hback, hclaimed, hbid]
      ring
  | close hcall hrow hopen hbids =>
      have hclaimed : claimed s e s' = 0 := by rw [claimed, hcall]
      have hcoins : s'.coins namesAccount = s.coins namesAccount := by
        rw [NamesStep, hcall] at hstep
        exact hstep
      rw [State.bids_of_set hbids, hclaimed, hcoins, State.bidFor, hrow, Option.elim_some,
        NameBid.toInt_neg_highBid hopen, abs_neg]
      ring
  | @claim name b hcall hrow hclosed hbids =>
      have hcoins : s'.coins namesAccount = s.coins namesAccount := by
        rw [NamesStep, hcall] at hstep
        exact hstep
      have hgone : s'.system.bidFor name = 0 := by
        rw [State.bidFor, hbids, OrderedTable.find_erase_self]
        rfl
      have hsum : s'.system.bids = s.system.bids - s.system.bidFor name := by
        rw [State.bids, hbids, OrderedTable.sum_erase_sub]
        rfl
      have hclaimed : claimed s e s' = s.system.bidFor name - s'.system.bidFor name := by
        rw [claimed, hcall]
      rw [hclaimed, hsum, hcoins, hgone]
      ring
  | @create creator name hcall _ hbids =>
      have hcoins : s'.coins namesAccount = s.coins namesAccount := by
        rw [NamesStep, hcall] at hstep
        exact hstep
      have hclaimed : claimed s e s' = s.system.bidFor name - s'.system.bidFor name := by
        rw [claimed, hcall]
      rw [hclaimed, hcoins, State.bids, State.bids, State.bidFor, State.bidFor, hbids]
      ring
  | other hbid hnew hbids =>
      have hcoins : s'.coins namesAccount = s.coins namesAccount := by
        unfold NamesStep at hstep
        split at hstep
        · rename_i bidder name bid hcall
          exact absurd hcall (hbid bidder name bid)
        · exact hstep
      have hclaimed : claimed s e s' = 0 := by
        unfold claimed
        split
        · rename_i creator name hcall
          exact absurd hcall (hnew creator name)
        · rfl
      rw [hclaimed, hcoins, State.bids, State.bids, hbids, add_zero]

/-! ### One auction -/

/-- How the record of one name can change. -/
inductive RowStep (call : Call) (name : AccountName) : Option NameBid → Option NameBid → Prop
  | keep (row : Option NameBid) : RowStep call name row row
  | bid {row : Option NameBid} {bidder : AccountName} {bid : Asset} {time : UInt64}
      (hcall : call = .system (.bidname bidder name bid)) (hpos : 0 < bid.units)
      (hraise : ∀ b ∈ row, Outbids bidder bid b) :
      RowStep call name row (some ⟨name, bidder, bid.amount, time⟩)
  | close {b : NameBid} {timestamp : UInt32} {producer : AccountName}
      (hcall : call = .system (.onblock timestamp producer)) (hopen : 0 < b.highBid.toInt) :
      RowStep call name (some b) (some { b with highBid := -b.highBid })
  | claim {b : NameBid} (hcall : call = .newaccount b.highBidder name)
      (hclosed : b.highBid.toInt < 0) : RowStep call name (some b) none

theorem AuctionEffect.rowStep {s s' : Chain} {e : Event} (h : AuctionEffect s s' e)
    (name : AccountName) :
    RowStep e.call name (s.system.namebids.find name) (s'.system.namebids.find name) := by
  cases h with
  | bid hcall hok hraise hne hbids =>
      rw [hbids, OrderedTable.find_set]
      split
      · rename_i hname
        subst hname
        exact .bid hcall hok.positive hraise
      · exact .keep _
  | close hcall hrow hopen hbids =>
      rw [hbids, OrderedTable.find_set]
      split
      · rename_i hname
        rw [hname, hrow]
        exact .close hcall hopen
      · exact .keep _
  | claim hcall hrow hclosed hbids =>
      rw [hbids, OrderedTable.find_erase]
      split
      · rename_i hname
        rw [hname, hrow]
        exact .claim hcall hclosed
      · exact .keep _
  | create _ _ hbids | other _ _ hbids =>
      rw [hbids]
      exact .keep _

/-- The auction for a name is over: it is closed, or the account exists and no
bid is recorded. -/
def Over (name : AccountName) (b : NameBid) (s : Chain) : Prop :=
  s.system.namebids.find name = some b ∨
    s.system.namebids.find name = none ∧ name ∈ s.accounts

theorem exec_accounts {s s' : Chain} {e : Event} (h : exec env s e = .ok s') :
    s.accounts ⊆ s'.accounts ∧
      ∀ creator name, e.call = .newaccount creator name → name ∈ s'.accounts := by
  rcases exec_cases h with ⟨action, token, hcall, -, rfl⟩ |
    ⟨creator, newact, accounts, sys, system, hcall, hcreate, -, -, rfl⟩ |
    ⟨action, sys, r, token, hcall, -, -, -, rfl⟩
  · exact ⟨Finset.Subset.refl _, fun _ _ he => by rw [hcall] at he; cases he⟩
  · simp only [createAccount, Rollback.bind_eq_ok, requireAuth_eq_ok, eosioAssert_eq_ok,
      exists_const, Rollback.pure_eq_ok] at hcreate
    obtain ⟨-, -, rfl⟩ := hcreate
    refine ⟨Finset.subset_insert _ _, fun creator name he => ?_⟩
    rw [hcall] at he
    cases he
    exact Finset.mem_insert_self ..
  · exact ⟨Finset.Subset.refl _, fun _ _ he => by rw [hcall] at he; cases he⟩

theorem Over.exec {s s' : Chain} {e : Event} (hs : Over name b s) (hclosed : b.highBid.toInt < 0)
    (heffect : AuctionEffect s s' e) (h : exec env s e = .ok s') : Over name b s' := by
  obtain ⟨hsub, hnew⟩ := exec_accounts h
  cases heffect with
  | @bid bidder name' bid hcall hok hraise hne hbids =>
      have hother : name ≠ name' := fun he => by
        subst he
        rcases hs with hrow | ⟨-, hmem⟩
        · exact lt_asymm hclosed (hraise b hrow).isOpen
        · exact hok.free hmem
      rw [Over, hbids, OrderedTable.find_set_of_ne _ hother]
      exact hs.imp_right (And.imp_right fun hmem => hsub hmem)
  | @close timestamp producer name' b' hcall hrow hopen hbids =>
      have hother : name ≠ name' := fun he => by
        subst he
        rcases hs with hrow' | ⟨hnone, -⟩
        · rw [hrow] at hrow'
          cases hrow'
          exact lt_asymm hclosed hopen
        · rw [hnone] at hrow
          cases hrow
      rw [Over, hbids, OrderedTable.find_set_of_ne _ hother]
      exact hs.imp_right (And.imp_right fun hmem => hsub hmem)
  | @claim name' b' hcall hrow _ hbids =>
      rw [Over, hbids, OrderedTable.find_erase]
      split
      · rename_i hname
        exact .inr ⟨rfl, hname ▸ hnew _ _ hcall⟩
      · exact hs.imp_right (And.imp_right fun hmem => hsub hmem)
  | create _ _ hbids | other _ _ hbids =>
      rw [Over, hbids]
      exact hs.imp_right (And.imp_right fun hmem => hsub hmem)

/-! ### Runs -/

structure AuctionInvariant (s : Chain) : Prop where
  token : Token.Conserved s.token
  stake : StakeRows s.system
  rows : BidRows s.system

theorem auctionInvariant_init : AuctionInvariant {} :=
  ⟨Token.conserved_init, stakeRows_init, fun _ _ h => by cases h⟩

theorem AuctionInvariant.effect {s s' : Chain} {e : Event} (hs : AuctionInvariant s)
    (h : exec env s e = .ok s') : AuctionEffect s s' e :=
  exec_auctions hs.token hs.stake hs.rows h

theorem AuctionInvariant.exec {s s' : Chain} {e : Event} (hs : AuctionInvariant s)
    (h : exec env s e = .ok s') : AuctionInvariant s' :=
  ⟨exec_tokenConserved hs.token h, hs.stake.exec h, hs.rows.exec (hs.effect h)⟩

theorem run_over (env : Env) {s : Chain} (hs : AuctionInvariant s)
    (hrow : s.system.namebids.find name = some b) (hclosed : b.highBid.toInt < 0)
    (es : List Event) : AuctionInvariant (run env s es) ∧ Over name b (run env s es) :=
  Rollback.run_induction (I := fun s => AuctionInvariant s ∧ Over name b s)
    (fun _ _ _ hs h => ⟨hs.1.exec h, hs.2.exec hclosed (hs.1.effect h) h⟩) es ⟨hs, .inl hrow⟩

/-- When the auction is over no further bid is accepted. -/
theorem Over.no_bid {s s' : Chain} {e : Event} (hover : Over name b s)
    (hclosed : b.highBid.toInt < 0) (hs : AuctionInvariant s)
    (hcall : e.call = .system (.bidname bidder name bid)) : System.exec env s e ≠ .ok s' := fun h => by
  have hno : ∀ {bidder bid}, e.call = .system (.bidname bidder name bid) →
      BidOk (e.ctx s) name bid →
      (∀ b ∈ s.system.namebids.find name, Outbids bidder bid b) → False :=
    fun _ hok hraise => by
      rcases hover with hrow | ⟨-, hmem⟩
      · exact lt_asymm hclosed (hraise b hrow).isOpen
      · exact hok.free hmem
  cases hs.effect h with
  | bid hcall' hok hraise =>
      have hsame := hcall'
      rw [hcall] at hsame
      cases hsame
      exact hno hcall' hok hraise
  | close hcall' | claim hcall' | create hcall' =>
      rw [hcall] at hcall'
      cases hcall'
  | other hbid => exact hbid _ _ _ hcall

theorem claimed_nonneg {s s' : Chain} {e : Event} (h : AuctionEffect s s' e) :
    0 ≤ claimed s e s' := by
  cases h with
  | bid hcall | close hcall =>
      rw [claimed, hcall]
  | claim hcall hrow hclosed hbids =>
      rw [claimed, hcall]
      simp only [State.bidFor, hbids, OrderedTable.find_erase_self, Option.elim_none, sub_zero,
        hrow, Option.elim_some]
      exact abs_nonneg _
  | create hcall _ hbids =>
      rw [claimed, hcall]
      simp only [State.bidFor, hbids, sub_self, le_refl]
  | other hbid hnew =>
      unfold claimed
      split
      · rename_i creator name hcall
        exact absurd hcall (hnew creator name)
      · exact le_refl 0

/-- The coins of `eosio.names` cover all that is bid. -/
structure Covered (s : Chain) : Prop extends AuctionInvariant s where
  bids : s.system.bids ≤ s.coins namesAccount

theorem Covered.exec {s s' : Chain} {e : Event} (hs : Covered s) (h : exec env s e = .ok s')
    (hstep : NamesStep s e s') : Covered s' := by
  refine ⟨hs.toAuctionInvariant.exec h, ?_⟩
  have heffect := hs.effect h
  have hbacked := heffect.backed hstep
  have hnonneg := claimed_nonneg heffect
  have hbids := hs.bids
  omega

theorem bidname_avoids {s : State} :
    Rollback.Avoids (fun f => f.site? = some .subBalance) (bidname c s bidder name bid) := by
  have hassert : ∀ {test : Prop} [Decidable test] {msg : String},
      Rollback.Avoids (fun f => f.site? = some .subBalance) (eosioAssert .bidname test msg) :=
    avoids_eosioAssert fun _ => by simp [Failure.site?]
  unfold bidname
  refine (avoids_requireAuth (by simp [Failure.site?])).bind fun _ _ => ?_
  refine hassert.bind fun _ _ => hassert.bind fun _ _ => hassert.bind fun _ _ => ?_
  refine hassert.bind fun _ _ => hassert.bind fun _ _ => hassert.bind fun _ _ => ?_
  refine hassert.bind fun _ _ => ?_
  cases s.namebids.find name with
  | none => exact Rollback.avoids_pure _
  | some b =>
      refine hassert.bind fun _ _ => hassert.bind fun _ _ => hassert.bind fun _ _ => ?_
      exact (Asset.avoids_make _ _ fun _ => by simp [Failure.site?]).bind fun _ _ =>
        Rollback.avoids_pure _

/-- A bid that its bidder can pay does not fail for want of balance: what is paid
back was paid in. -/
theorem Covered.bid_not_overdrawn {s : Chain} {e : Event} (hs : Covered s)
    (hcall : e.call = .system (.bidname bidder name bid)) (hcov : bid.units ≤ s.coins bidder) :
    Rollback.Avoids (fun f => f.site? = some .subBalance) (System.exec env s e) := by
  simp only [System.exec, hcall]
  refine (construct_avoids (by decide)).bind fun sys hsys => ?_
  refine Rollback.Avoids.bind bidname_avoids fun r hr => ?_
  refine Rollback.Avoids.bind ?_ fun _ _ => Rollback.avoids_pure _
  obtain ⟨hok, hraise, -, hsent⟩ := bidname_cases hr
  rw [hsent, construct_namebids hsys]
  have hpay : Rollback.Avoids (fun f => f.site? = some .subBalance) (execInline (e.ctx s) s.token
      (inlineTransfer bidder namesAccount bid ("bid name " ++ nameToString name))) :=
    settle_not_overdrawn (by rw [hok.symbol]; exact hcov)
  cases hrow : s.system.namebids.find name with
  | none =>
      rw [bidTransfers, List.foldlM_cons]
      exact hpay.bind fun _ _ => Rollback.avoids_pure _
  | some b =>
      rw [bidTransfers, List.foldlM_cons]
      refine hpay.bind fun t ht => ?_
      rw [List.foldlM_cons]
      refine (settle_not_overdrawn ?_).bind fun _ _ => Rollback.avoids_pure _
      have hmoved := Token.transfer_transferred hs.token.rows (execInline_transfer.mp ht)
      have hbids := hs.bids
      have hle : |b.highBid.toInt| ≤ s.system.bids :=
        OrderedTable.le_sum (t := s.system.namebids) (f := fun _ b => |b.highBid.toInt|)
          (fun _ _ _ => abs_nonneg _) hrow
      have hself := le_abs_self b.highBid.toInt
      have hpos := hok.positive
      have hbalance : t.balance namesAccount coreSymbol.name =
          s.coins namesAccount + bid.units := by
        rw [hmoved.balance, hok.symbol, if_neg fun h => hmoved.ne h.1.symm, if_pos ⟨rfl, rfl⟩,
          add_zero]
        rfl
      rw [hbalance]
      simp only [Asset.units] at hpos ⊢
      omega

/-- The auctions in the state that a run reaches. -/
structure NameAuctions (env : Env) (es : List Event) : Prop where
  /-- The record of a name changes only by a bid that beats it, by being closed,
  and by being claimed. -/
  step : ∀ e s' name, exec env (run env {} es) e = .ok s' →
    RowStep e.call name ((run env {} es).system.namebids.find name)
      (s'.system.namebids.find name)
  /-- An accepted bid is recorded, and the one before it is paid back. -/
  bid : ∀ e s' bidder name bid, e.call = .system (.bidname bidder name bid) →
    exec env (run env {} es) e = .ok s' →
    s'.system.namebids.find name = some ⟨name, bidder, bid.amount, e.time⟩ ∧
      (∀ b ∈ (run env {} es).system.namebids.find name, Outbids bidder bid b) ∧
      ∀ owner, s'.coins owner = (run env {} es).coins owner +
        bidMoved bidder bid ((run env {} es).system.namebids.find name) owner
  /-- What is closed stays closed until it is claimed, and accepts no bid at any
  later time. -/
  closed : ∀ es' name b, (run env {} es).system.namebids.find name = some b →
    b.highBid.toInt < 0 → Over name b (run env (run env {} es) es') ∧
      ∀ e s' bidder bid, e.call = .system (.bidname bidder name bid) →
        exec env (run env (run env {} es) es') e ≠ .ok s'
  /-- An account whose name is recorded is created by the highest bidder once the
  auction is closed, which removes the record, or by the contract's account. -/
  created : ∀ e s' creator name b, e.call = .newaccount creator name →
    (run env {} es).system.namebids.find name = some b →
    exec env (run env {} es) e = .ok s' →
    creator = self ∧ s'.system.namebids.find name = some b ∨
      creator = b.highBidder ∧ b.highBid.toInt < 0 ∧ s'.system.namebids.find name = none
  backed : (run env {} es).coins namesAccount =
    (run env {} es).system.bids + Rollback.tally (exec env) claimed {} es
  /-- A bid fails for want of balance only if its bidder cannot pay it. -/
  covered : ∀ e f bidder name bid, e.call = .system (.bidname bidder name bid) →
    exec env (run env {} es) e = .error f → f.site? = some .subBalance →
    (run env {} es).coins bidder < bid.units

theorem AuctionEffect.bid_of_call {s s' : Chain} {e : Event} (h : AuctionEffect s s' e)
    (hcall : e.call = .system (.bidname bidder name bid)) :
    s'.system.namebids.find name = some ⟨name, bidder, bid.amount, e.time⟩ ∧
      (∀ b ∈ s.system.namebids.find name, Outbids bidder bid b) ∧
      ∀ owner, s'.coins owner =
        s.coins owner + bidMoved bidder bid (s.system.namebids.find name) owner := by
  cases h with
  | bid hcall' _ hraise _ hbids hcoins =>
      rw [hcall] at hcall'
      cases hcall'
      refine ⟨?_, hraise, hcoins⟩
      rw [hbids, OrderedTable.find_set_self]
  | close hcall' | claim hcall' | create hcall' =>
      rw [hcall] at hcall'
      cases hcall'
  | other hbid => exact absurd hcall (hbid _ _ _)

theorem AuctionEffect.created_of_call {s s' : Chain} {e : Event} {creator : AccountName}
    (h : AuctionEffect s s' e) (hcall : e.call = .newaccount creator name)
    (hrow : s.system.namebids.find name = some b) :
    creator = self ∧ s'.system.namebids.find name = some b ∨
      creator = b.highBidder ∧ b.highBid.toInt < 0 ∧ s'.system.namebids.find name = none := by
  cases h with
  | bid hcall' | close hcall' =>
      rw [hcall] at hcall'
      cases hcall'
  | claim hcall' hrow' hclosed hbids =>
      rw [hcall] at hcall'
      cases hcall'
      rw [hrow] at hrow'
      cases hrow'
      refine .inr ⟨rfl, hclosed, ?_⟩
      rw [hbids, OrderedTable.find_erase_self]
  | create hcall' hexempt hbids =>
      rw [hcall] at hcall'
      cases hcall'
      refine .inl ⟨hexempt.resolve_right fun hnone => ?_, hbids ▸ hrow⟩
      rw [hrow] at hnone
      cases hnone
  | other _ hnew => exact absurd hcall (hnew _ _)

/-- In every run in which only bids touch the coins of `eosio.names`, the
auctions go their way, and the coins are what is bid and what was claimed. -/
theorem name_auctions (env : Env) (es : List Event)
    (h : Rollback.Along (exec env) NamesStep {} es) : NameAuctions env es := by
  have hs : Covered (run env {} es) := Rollback.run_induction_along
    (fun _ _ _ hs hok hstep => hs.exec hok hstep) h
    ⟨auctionInvariant_init, le_refl (0 : ℤ)⟩
  have htally := Rollback.run_tally (fun _ _ _ (hs : AuctionInvariant _) hok _ => hs.exec hok)
    (fun _ _ _ hs hok hstep => (hs.effect hok).backed hstep) h auctionInvariant_init
  refine ⟨fun e s' name hok => (hs.effect hok).rowStep name,
    fun e s' bidder name bid hcall hok => (hs.effect hok).bid_of_call hcall,
    fun es' name b hrow hclosed => ?_,
    fun e s' creator name b hcall hrow hok => (hs.effect hok).created_of_call hcall hrow, ?_,
    fun e f bidder name bid hcall hf hsite => ?_⟩
  · obtain ⟨hinv, hover⟩ := run_over env hs.toAuctionInvariant hrow hclosed es'
    exact ⟨hover, fun e s' bidder bid hcall => hover.no_bid hclosed hinv hcall⟩
  · have hrun : (run env {} es).coins namesAccount - (run env {} es).system.bids =
        0 + Rollback.tally (exec env) claimed {} es := htally
    omega
  · exact lt_of_not_ge fun hcov => hs.bid_not_overdrawn hcall hcov f hf hsite

/-- Alice bids for a name, Bob outbids her, the auction is closed, and Bob claims
the name. -/
def shortSold : List Event :=
  genesis [stakeAccount, namesAccount, N "alice", N "bob"] (N "alice") ++
    [⟨[N "alice"], 0, .token (.transfer (N "alice") (N "bob") (core 100) "")⟩,
      ⟨[N "alice"], usecondsPerDay, .system (.delegatebw (N "alice") (N "alice")
        (core 1000000000000) (core 1000000000000) false)⟩,
      ⟨[N "alice"], usecondsPerDay, .system (.voteproducer (N "alice") 0 [])⟩,
      ⟨[N "alice"], usecondsPerDay, .system (.bidname (N "alice") (N "short") (core 20))⟩,
      ⟨[N "bob"], usecondsPerDay, .system (.bidname (N "bob") (N "short") (core 30))⟩,
      ⟨[N "alice"], usecondsPerDay, .system (.bidname (N "alice") (N "name") (core 10))⟩,
      ⟨[self], 20 * usecondsPerDay, .system (.onblock (20 * blocksPerDay) (N "alice"))⟩,
      ⟨[N "bob"], 20 * usecondsPerDay, .newaccount (N "bob") (N "short")⟩]

theorem name_auctions_sold :
    NameAuctions .flat shortSold ∧ (run .flat {} shortSold).coins namesAccount = 40 ∧
      (run .flat {} shortSold).system.bids = 10 :=
  ⟨name_auctions .flat shortSold (by decide +kernel), by decide +kernel, by decide +kernel⟩

/-- An account that the contract's account creates leaves the record of its name
behind. -/
theorem record_kept_by_self :
    let es := genesis [stakeAccount, namesAccount, N "alice"] (N "alice") ++
      [⟨[N "alice"], 0, .system (.bidname (N "alice") (N "short") (core 20))⟩]
    let e : Event := ⟨[self], 0, .newaccount self (N "short")⟩
    (run .flat {} es).system.namebids.find (N "short") =
        some ⟨N "short", N "alice", 20, 0⟩ ∧
      ∃ s', exec .flat (run .flat {} es) e = .ok s' ∧
        s'.system.namebids.find (N "short") = some ⟨N "short", N "alice", 20, 0⟩ :=
  ⟨by decide +kernel, by decide +kernel⟩

end Xidata.System
