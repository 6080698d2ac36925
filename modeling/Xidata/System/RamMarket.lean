import Xidata.System.StakeConservation

/-!
RAM market accounting.  The base connector holds the RAM that is not reserved,
what is reserved is what the accounts own, and the quote connector has grown by
what `eosio.ram` holds.

The prices are arbitrary.  What the law needs of a purchase is that it is paid
in the core token and that the price it is given does not take a 64-bit
counter around.
-/

namespace Xidata.System

open Eosiolib

variable {env : Env}

/-! ### The law -/

def State.ramOf (s : State) (a : AccountName) : ℤ :=
  (s.userres.find a).elim 0 UserResources.ram

/-- The RAM of all accounts together. -/
def State.ramOwned (s : State) : ℤ := s.userres.sum fun _ r => r.ramBytes.toInt

/-- The accounts of the RAM market agree, given the quote connector's balance
at its creation. -/
def RamLaw (initialQuote : ℤ) (s : Chain) : Prop :=
  ∃ m ∈ s.system.rammarket,
    m.base.units + s.system.global.totalRamBytesReserved.toNat =
      s.system.global.maxRamSize.toNat ∧
    (s.system.global.totalRamBytesReserved.toNat : ℤ) = s.system.ramOwned ∧
    m.quote.units - initialQuote = s.system.global.totalRamStake.toInt ∧
    s.system.global.totalRamStake.toInt = s.coins ramAccount

instance (q : ℤ) (s : Chain) : Decidable (RamLaw q s) :=
  inferInstanceAs (Decidable (∃ m ∈ s.system.rammarket, _))

/-! ### The condition -/

/-- What the market gives for `quant` less the fee; nothing when it refuses. -/
def bytesFor (env : Env) (s : State) (quant : Asset) : ℤ :=
  s.rammarket.elim 0 fun m =>
    match m.convert env ⟨quant.amount - ramFee quant.amount, quant.symbol⟩ ramSymbol with
    | .ok p => p.2.units
    | .error _ => 0

/-- What the market asks for `bytes`; nothing when it refuses. -/
def priceOf (env : Env) (s : State) (bytes : UInt32) : Asset :=
  s.rammarket.elim (core 0) fun m =>
    match m.convert env ⟨bytes.toUInt64.toInt64, ramSymbol⟩ coreSymbol with
    | .ok p => p.2
    | .error _ => core 0

/-- `buyram`, `buyrambytes` and `sellram`. -/
def Call.isRamTrade : Call → Bool
  | .system (.buyram ..) | .system (.buyrambytes ..) | .system (.sellram ..) => true
  | _ => false

/-- Who gets the RAM of a purchase, and what is paid. -/
def Call.purchase (env : Env) (s : State) : Call → Option (AccountName × Asset)
  | .system (.buyram _ receiver quant) => some (receiver, quant)
  | .system (.buyrambytes _ receiver bytes) => some (receiver, priceOf env s bytes)
  | _ => none

/-- The condition on a purchase: it is not paid in the market's own symbols,
and neither the base connector nor the receiver's quota wraps around. -/
structure PurchaseOk (env : Env) (s : State) (receiver : AccountName) (quant : Asset) : Prop where
  ne_ram : quant.symbol ≠ ramSymbol
  ne_ramcore : quant.symbol ≠ ramcoreSymbol
  base : -2 ^ 63 ≤ s.rammarket.elim 0 (fun m => m.base.units) - bytesFor env s quant
  quota : s.ramOf receiver + bytesFor env s quant < 2 ^ 63

/-- The condition on a step: a purchase is as above, and no other call than a
trade touches the coins of `eosio.ram`. -/
def RamStep (env : Env) (s : Chain) (e : Event) (s' : Chain) : Prop :=
  (∀ p ∈ e.call.purchase env s.system, PurchaseOk env s.system p.1 p.2) ∧
    (¬ e.call.isRamTrade → s'.coins ramAccount = s.coins ramAccount)

instance (s : State) (receiver : AccountName) (quant : Asset) :
    Decidable (PurchaseOk env s receiver quant) :=
  decidable_of_iff (quant.symbol ≠ ramSymbol ∧ quant.symbol ≠ ramcoreSymbol ∧
    -2 ^ 63 ≤ s.rammarket.elim 0 (fun m => m.base.units) - bytesFor env s quant ∧
    s.ramOf receiver + bytesFor env s quant < 2 ^ 63)
    ⟨fun ⟨h₁, h₂, h₃, h₄⟩ => ⟨h₁, h₂, h₃, h₄⟩, fun ⟨h₁, h₂, h₃, h₄⟩ => ⟨h₁, h₂, h₃, h₄⟩⟩

instance (s : Chain) (e : Event) (s' : Chain) : Decidable (RamStep env s e s') :=
  inferInstanceAs (Decidable (_ ∧ _))

/-! ### The invariant -/

/-- The market is open and its law holds. -/
structure MarketOpen (initialQuote : ℤ) (s : Chain) (m : ExchangeState) : Prop where
  row : s.system.rammarket = some m
  symbols : m.IsRamMarket
  base : m.base.units + s.system.global.totalRamBytesReserved.toNat =
    s.system.global.maxRamSize.toNat
  reserved : (s.system.global.totalRamBytesReserved.toNat : ℤ) = s.system.ramOwned
  quote : m.quote.units - initialQuote = s.system.global.totalRamStake.toInt
  stake : s.system.global.totalRamStake.toInt = s.coins ramAccount
  stake_nonneg : 0 ≤ s.system.global.totalRamStake.toInt
  initial_nonneg : 0 ≤ initialQuote
  initial_lt : initialQuote < 2 ^ 62

structure RamInvariant (initialQuote : ℤ) (s : Chain) : Prop where
  token : Token.Conserved s.token
  rows : StakeRows s.system
  ram_nonneg : ∀ a, 0 ≤ s.system.ramOf a
  max_le : s.system.global.maxRamSize.toNat ≤ 2 ^ 50
  market : ∃ m, MarketOpen initialQuote s m

theorem RamInvariant.law {q : ℤ} {s : Chain} (h : RamInvariant q s) : RamLaw q s := by
  obtain ⟨m, hm⟩ := h.market
  exact ⟨m, hm.row, hm.base, hm.reserved, hm.quote, hm.stake⟩

/-! ### What does not trade -/

/-- The RAM of every account agrees. -/
structure SameRam (s s' : State) : Prop where
  ramOf : ∀ a, s'.ramOf a = s.ramOf a
  ramOwned : s'.ramOwned = s.ramOwned

theorem SameResources.sameRam {s s' : State} (h : SameResources s s') : SameRam s s' where
  ramOf a := by rw [State.ramOf, h.userres]; rfl
  ramOwned := by rw [State.ramOwned, h.userres]; rfl

theorem sameRam_of_adjusted {s s' : State} {a : AccountName}
    (h : s.userres.Adjusted s'.userres a UserResources.ram 0) : SameRam s s' where
  ramOf b := by
    have hvalue := h.value b
    rw [ite_self, add_zero] at hvalue
    exact hvalue
  ramOwned := by
    have hsum := h.sum (f := fun _ x => x) fun _ _ _ => rfl
    rw [add_zero] at hsum
    exact hsum

theorem RamInvariant.of_same {q : ℤ} {s s' : Chain} (h : RamInvariant q s)
    (htoken : Token.Conserved s'.token) (hrows : StakeRows s'.system)
    (hram : SameRam s.system s'.system) (hmarket : SameMarket s.system s'.system)
    (hcoins : s'.coins ramAccount = s.coins ramAccount) : RamInvariant q s' := by
  obtain ⟨m, hm⟩ := h.market
  refine ⟨htoken, hrows, fun a => hram.ramOf a ▸ h.ram_nonneg a, hmarket.maxRamSize ▸ h.max_le,
    m, hmarket.rammarket.trans hm.row, hm.symbols, ?_, ?_, ?_, ?_, ?_, hm.initial_nonneg,
    hm.initial_lt⟩
  · rw [hmarket.totalRamBytesReserved, hmarket.maxRamSize, hm.base]
  · rw [hmarket.totalRamBytesReserved, hram.ramOwned, hm.reserved]
  · rw [hmarket.totalRamStake, hm.quote]
  · rw [hmarket.totalRamStake, hcoins, hm.stake]
  · rw [hmarket.totalRamStake]
    exact hm.stake_nonneg

/-! ### Trades -/

theorem ramfeeAccount_ne_ramAccount : ramAccount ≠ ramfeeAccount := by decide +kernel

/-- A fee never reaches `eosio.ram`. -/
theorem flow_ramFee {payer : AccountName} {fee : Asset} {memo : String}
    (h : payer ≠ ramAccount) :
    flow ramAccount coreSymbol.name (inlineTransfer payer ramfeeAccount fee memo) = 0 := by
  rw [flow_inlineTransfer, if_neg fun he => h he.1.symm,
    if_neg fun he => ramfeeAccount_ne_ramAccount he.1, add_zero]

/-- The quota of the receiver after a purchase that does not wrap it around. -/
theorem boughtRam_ram {s : State} {receiver : AccountName} {bytes : Int64}
    (hold : 0 ≤ s.ramOf receiver) (hbytes : 0 < bytes.toInt)
    (h : s.ramOf receiver + bytes.toInt < 2 ^ 63) :
    (boughtRam s receiver bytes).ram = s.ramOf receiver + bytes.toInt := by
  unfold State.ramOf at hold h ⊢
  unfold boughtRam
  cases hres : s.userres.find receiver with
  | none => exact (zero_add _).symm
  | some res =>
      rw [hres, Option.elim_some] at hold h
      simp only [UserResources.ram, Option.elim_some, Int64.toInt_add] at hold h ⊢
      exact Asset.bmod_eq_self (by omega) (by omega)

/-- A trade moves the same number of bytes between the market, the reserved bytes and one
quota, and the price into or out of both counters of the money. -/
theorem RamInvariant.of_trade {q d : ℤ} {s : Chain} {token : Token.State} {sys : State}
    {a : AccountName} {m m' : ExchangeState} (h : RamInvariant q s) (hm : MarketOpen q s m)
    (htoken : Token.Conserved token) (hrows : StakeRows sys)
    (hadj : s.system.userres.Adjusted sys.userres a UserResources.ram d)
    (hquota : 0 ≤ s.system.ramOf a + d)
    (hmax : sys.global.maxRamSize = s.system.global.maxRamSize) (hrow : sys.rammarket = some m')
    (hsymbols : m'.IsRamMarket) (hbase : m'.base.units = m.base.units - d)
    (hreserved : (sys.global.totalRamBytesReserved.toNat : ℤ) =
      s.system.global.totalRamBytesReserved.toNat + d)
    (hstake : sys.global.totalRamStake.toInt = token.balance ramAccount coreSymbol.name)
    (hquote : m'.quote.units - q = token.balance ramAccount coreSymbol.name)
    (hnonneg : 0 ≤ token.balance ramAccount coreSymbol.name) :
    RamInvariant q { s with token, system := sys } := by
  have hram : ∀ b, 0 ≤ sys.ramOf b := fun b => by
    have hvalue := hadj.value b
    have hold := h.ram_nonneg b
    simp only [State.ramOf] at hvalue hold hquota ⊢
    rw [hvalue]
    split
    · next hb => exact hb ▸ hquota
    · omega
  have howned : sys.ramOwned = s.system.ramOwned + d :=
    hadj.sum (f := fun _ x => x) fun _ _ _ => rfl
  refine ⟨htoken, hrows, hram, hmax ▸ h.max_le, m', hrow, hsymbols, ?_, ?_, hquote.trans hstake.symm,
    hstake, hstake.symm ▸ hnonneg, hm.initial_nonneg, hm.initial_lt⟩
  · have hb := hm.base
    rw [hreserved, hbase, hmax]
    omega
  · rw [hreserved, howned, hm.reserved]

theorem RamInvariant.buyram {q : ℤ} {s : Chain} {ctx : Ctx} {payer receiver : AccountName}
    {quant : Asset} {r : State × List Token.Inline} {token : Token.State}
    (h : RamInvariant q s) (hok : PurchaseOk env s.system receiver quant)
    (hbuy : buyram env ctx s.system payer receiver quant = .ok r)
    (hsettle : r.2.foldlM (execInline ctx) s.token = .ok token) :
    RamInvariant q { s with token, system := r.1 } := by
  obtain ⟨hbooked, htransfers⟩ := buyram_booked hbuy
  have hrows := h.rows.of_booked hbooked
  have hsettled := settled_of_ok h.token htransfers hsettle
  obtain ⟨m, hm⟩ := h.market
  obtain ⟨m', p, -, -, hm', hp, hbytes, hr, hsent⟩ := buyram_cases hbuy
  obtain rfl : m = m' := Option.some.inj (hm.row.symm.trans hm')
  have hcore : quant.symbol = coreSymbol :=
    ((hm.symbols.convert_symbol hp).resolve_left hok.ne_ramcore).resolve_left hok.ne_ram
  have hpaid : (⟨quant.amount - ramFee quant.amount, quant.symbol⟩ : Asset).symbol = coreSymbol :=
    hcore
  obtain ⟨hsymbols, hquote', hbase', hrange⟩ := hm.symbols.convert_buy hpaid hp
  have hbytesFor : bytesFor env s.system quant = p.2.units := by
    rw [bytesFor, hm.row, Option.elim_some, hp]
  have hbaseOk := hok.base
  have hquotaOk := hok.quota
  rw [hbytesFor, hm.row, Option.elim_some] at hbaseOk
  rw [hbytesFor] at hquotaOk
  -- what eosio.ram receives
  have hcoins : token.balance ramAccount coreSymbol.name =
      s.coins ramAccount + (quant.amount - ramFee quant.amount).toInt := by
    have hpayer : payer ≠ ramAccount := by
      rw [hsent, List.foldlM_cons, Rollback.bind_eq_ok] at hsettle
      obtain ⟨t, ht, -⟩ := hsettle
      exact ne_of_execInline h.token ht
    rw [hsettled.balance, hsent, List.map_cons, List.sum_cons, flow_inlineTransfer, hcore,
      if_neg fun he => hpayer he.1.symm, if_pos ⟨rfl, rfl⟩]
    split
    · rw [List.map_singleton, List.sum_singleton, flow_ramFee hpayer]
      simp only [Chain.coins, Asset.units]
      omega
    · simp only [Chain.coins, Asset.units, List.map_nil, List.sum_nil]
      omega
  have hcoins_le := Token.balance_le hsettled.conserved.rows ramAccount coreSymbol.name
  have hcoins_nonneg := Token.balance_nonneg hsettled.conserved.rows ramAccount coreSymbol.name
  have hmax := h.max_le
  have hq₀ := hm.initial_nonneg
  have hq₁ := hm.initial_lt
  have hbaseLt := Int64.toInt_lt m.base.amount
  have hbytesRange := (Asset.isAmountWithinRange_iff.mp hrange).2
  -- the receiver's quota
  have hquota := boughtRam_ram (h.ram_nonneg receiver) hbytes hquotaOk
  have hadj : s.system.userres.Adjusted r.1.userres receiver UserResources.ram p.2.units := by
    rw [hr]
    exact .set hquota
  -- the counters
  have hbase : p.1.base.units = m.base.units - p.2.units := by
    rw [Asset.units, hbase', Int64.toInt_sub]
    exact Asset.bmod_eq_self hbaseOk (by simp only [Asset.units] at *; omega)
  have hreserved : (r.1.global.totalRamBytesReserved.toNat : ℤ) =
      s.system.global.totalRamBytesReserved.toNat + p.2.units := by
    have hcast := toNat_toUInt64 (x := p.2.amount) hbytes.le
    have hb := hm.base
    rw [hr]
    simp only [bookRam, Asset.units] at *
    rw [toNat_add_of_lt (by omega)]
    omega
  have hstake : r.1.global.totalRamStake.toInt = token.balance ramAccount coreSymbol.name := by
    have hs := hm.stake
    rw [hr]
    simp only [bookRam]
    rw [Int64.toInt_add, hs, ← hcoins]
    exact Asset.bmod_eq_self (by omega) (by omega)
  have hquote : p.1.quote.units - q = token.balance ramAccount coreSymbol.name := by
    have hs := hm.stake
    have hqu := hm.quote
    rw [Asset.units, hquote', Int64.toInt_add]
    simp only [Asset.units] at hqu ⊢
    rw [Asset.bmod_eq_self (by omega) (by omega)]
    omega
  exact h.of_trade hm hsettled.conserved hrows hadj
    (add_nonneg (h.ram_nonneg receiver) hbytes.le) (by rw [hr]; rfl) (by rw [hr]; rfl) hsymbols
    hbase hreserved hstake hquote hcoins_nonneg

/-- What one account owns is part of what is reserved. -/
theorem ramOf_le_ramOwned {s : State} (hs : ∀ a, 0 ≤ s.ramOf a) (a : AccountName) :
    s.ramOf a ≤ s.ramOwned := by
  have hrow : ∀ k r, s.userres.find k = some r → 0 ≤ r.ramBytes.toInt := fun k r hr => by
    have hk := hs k
    rw [State.ramOf, hr] at hk
    exact hk
  cases hres : s.userres.find a with
  | none =>
      rw [State.ramOf, hres]
      exact OrderedTable.sum_nonneg hrow
  | some res =>
      rw [State.ramOf, hres]
      exact OrderedTable.le_sum (t := s.userres) (f := fun _ r => r.ramBytes.toInt) hrow hres

theorem RamInvariant.sellram {q : ℤ} {s : Chain} {ctx : Ctx} {account : AccountName}
    {bytes : Int64} {r : State × List Token.Inline} {token : Token.State}
    (h : RamInvariant q s) (hsell : sellram env ctx s.system account bytes = .ok r)
    (hsettle : r.2.foldlM (execInline ctx) s.token = .ok token) :
    RamInvariant q { s with token, system := r.1 } := by
  obtain ⟨hbooked, htransfers⟩ := sellram_booked hsell
  have hrows := h.rows.of_booked hbooked
  have hsettled := settled_of_ok h.token htransfers hsettle
  obtain ⟨m, hm⟩ := h.market
  obtain ⟨res, m', p, fees, -, hbytes, hres, hquota, hm', -, hp, hout, hunstake, hr, hsent,
    hfees⟩ := sellram_cases hsell
  obtain rfl : m = m' := Option.some.inj (hm.row.symm.trans hm')
  have hsold : (⟨bytes, ramSymbol⟩ : Asset).symbol = ramSymbol := rfl
  obtain ⟨hsymbols, hbase', hquote', hsym, hrange⟩ := hm.symbols.convert_sell hsold hp
  have hramOf : s.system.ramOf account = res.ramBytes.toInt := by rw [State.ramOf, hres]; rfl
  have hle := ramOf_le_ramOwned h.ram_nonneg account
  -- what eosio.ram pays
  have hcoins : token.balance ramAccount coreSymbol.name =
      s.coins ramAccount - p.2.units := by
    have hne : ramAccount ≠ account := by
      rw [hsent, List.foldlM_cons, Rollback.bind_eq_ok] at hsettle
      obtain ⟨t, ht, -⟩ := hsettle
      exact ne_of_execInline h.token ht
    have hfee : (fees.map (flow ramAccount coreSymbol.name)).sum = 0 := by
      rcases hfees with rfl | ⟨fee, -, rfl⟩
      · rfl
      · rw [List.map_singleton, List.sum_singleton, flow_ramFee hne.symm]
    rw [hsettled.balance, hsent, List.map_cons, List.sum_cons, hfee, flow_inlineTransfer, hsym,
      if_pos ⟨rfl, rfl⟩, if_neg fun he => hne he.1]
    simp only [Chain.coins]
    omega
  have hmax := h.max_le
  have hq₀ := hm.initial_nonneg
  have hq₁ := hm.initial_lt
  have hbaseGe := Int64.le_toInt m.base.amount
  have hcoins_le := Token.balance_le h.token.rows ramAccount coreSymbol.name
  have houtRange := (Asset.isAmountWithinRange_iff.mp hrange).2
  have hold := h.ram_nonneg account
  -- the seller's quota
  have hadj : s.system.userres.Adjusted r.1.userres account UserResources.ram (-bytes.toInt) := by
    rw [hr]
    refine .set ?_
    rw [hres, Option.elim_some]
    simp only [UserResources.ram, Int64.toInt_sub]
    have hlt := Int64.toInt_lt res.ramBytes
    rw [Asset.bmod_eq_self (by omega) (by omega)]
    omega
  -- the counters
  have hb := hm.base
  have hreserved := hm.reserved
  have hbase : p.1.base.units = m.base.units - -bytes.toInt := by
    rw [Asset.units, hbase', Int64.toInt_add, sub_neg_eq_add]
    simp only [Asset.units] at *
    exact Asset.bmod_eq_self (by omega) (by omega)
  have hreserved' : (r.1.global.totalRamBytesReserved.toNat : ℤ) =
      s.system.global.totalRamBytesReserved.toNat + -bytes.toInt := by
    have hcast := toNat_toUInt64 (x := bytes) hbytes.le
    have hle' : bytes.toUInt64 ≤ s.system.global.totalRamBytesReserved := by
      rw [UInt64.le_iff_toNat_le]
      omega
    rw [hr]
    simp only [bookRam]
    rw [UInt64.toNat_sub_of_le _ _ hle']
    rw [UInt64.le_iff_toNat_le] at hle'
    omega
  have hs := hm.stake
  have hs₀ := hm.stake_nonneg
  have hstake : r.1.global.totalRamStake.toInt = token.balance ramAccount coreSymbol.name := by
    have hout' : p.2.amount.toInt = p.2.units := rfl
    rw [hr]
    simp only [bookRam]
    rw [Int64.toInt_sub, hout', hcoins, ← hs]
    have hcoins_le' : s.coins ramAccount ≤ 2 ^ 62 - 1 := hcoins_le
    exact Asset.bmod_eq_self (by omega) (by omega)
  have hquote : p.1.quote.units - q = token.balance ramAccount coreSymbol.name := by
    have hqu := hm.quote
    rw [Asset.units, hquote', Int64.toInt_sub]
    simp only [Asset.units, Chain.coins] at *
    rw [Asset.bmod_eq_self (by omega) (by omega)]
    omega
  have hnonneg : 0 ≤ r.1.global.totalRamStake.toInt := by
    rw [hr]
    exact hunstake
  exact h.of_trade hm hsettled.conserved hrows hadj (by omega) (by rw [hr]; rfl) (by rw [hr]; rfl)
    hsymbols hbase hreserved' hstake hquote (hstake ▸ hnonneg)

/-! ### Every event -/

theorem not_isRamTrade_of_isQuiet {a : Action} (ha : a.isQuiet) :
    ¬ (Call.system a).isRamTrade := by
  cases a <;> first | exact Bool.false_ne_true | cases ha

theorem RamInvariant.setram {q : ℤ} {s : Chain} {ctx : Ctx} {maxRamSize : UInt64} {sys : State}
    (h : RamInvariant q s) (hset : setram ctx s.system maxRamSize = .ok sys) :
    RamInvariant q { s with system := sys } := by
  obtain ⟨m, hm⟩ := h.market
  obtain ⟨hinc, hreal, -, m', hm', rfl⟩ := setram_cases hset
  obtain rfl : m = m' := Option.some.inj (hm.row.symm.trans hm')
  have hmax := h.max_le
  have hnew : maxRamSize.toNat < 2 ^ 50 := UInt64.lt_iff_toNat_lt.mp hreal
  have hgrow : s.system.global.maxRamSize.toNat < maxRamSize.toNat :=
    UInt64.lt_iff_toNat_lt.mp hinc
  have hbaseGe := Int64.le_toInt m.base.amount
  have hb := hm.base
  have hdelta : (maxRamSize.toInt64 - s.system.global.maxRamSize.toInt64).toInt =
      maxRamSize.toNat - s.system.global.maxRamSize.toNat := by
    rw [Int64.toInt_sub, toInt_toInt64 (by omega), toInt_toInt64 (by omega)]
    exact Asset.bmod_eq_self (by omega) (by omega)
  refine ⟨h.token, ⟨h.rows.delband, h.rows.userres, h.rows.refunds⟩, h.ram_nonneg, hnew.le, _, rfl,
    ⟨hm.symbols.supply, hm.symbols.base, hm.symbols.quote⟩, ?_, hm.reserved, hm.quote, hm.stake,
    hm.stake_nonneg, hm.initial_nonneg, hm.initial_lt⟩
  simp only [Asset.units, Int64.toInt_add, hdelta] at hb ⊢
  rw [Asset.bmod_eq_self (by omega) (by omega)]
  omega

theorem construct_of_market {token : Token.State} {s s' : State} {m : ExchangeState}
    (hm : s.rammarket = some m) (h : construct token s = .ok s') : s' = s := by
  rcases construct_cases h with rfl | ⟨hnone, -⟩
  · rfl
  · rw [hm] at hnone
    cases hnone

theorem StakeChanged.sameRam {ctx : Ctx} {s s' : State} {source from_ receiver : AccountName}
    {n c : Asset} {sent : List Token.Inline}
    (h : StakeChanged env ctx s s' source from_ receiver n c sent) :
    SameRam s s' ∧ SameMarket s s' := by
  obtain ⟨l, htotals, -⟩ := h.totals
  have hframe := (changeVoterStake_frame h.voter).toSameMarket
  exact ⟨sameRam_of_adjusted htotals.ram, hframe.rammarket, hframe.maxRamSize,
    hframe.totalRamBytesReserved, hframe.totalRamStake⟩

theorem newaccount_sameRam {s s' : State} {creator newact : AccountName}
    (h : newaccount s creator newact = .ok s') : SameRam s s' ∧ SameMarket s s' := by
  obtain ⟨namebids, -, hnone, rfl⟩ := newaccount_cases h
  exact ⟨sameRam_of_adjusted (a := newact) (.set (by rw [hnone]; rfl)), rfl, rfl, rfl, rfl⟩

/-- Every action trades, resizes RAM, or leaves RAM and its market as they are. -/
theorem apply_ram {ctx : Ctx} {token : Token.State} {s : State} {a : Action}
    {r : State × List Token.Inline} (hs : StakeRows s) (h : apply env ctx token s a = .ok r) :
    (Call.system a).isRamTrade ∨ (∃ maxRamSize, a = .setram maxRamSize) ∨
      SameRam s r.1 ∧ SameMarket s r.1 := by
  cases apply_effect h with
  | buyram | buyrambytes | sellram => exact .inl rfl
  | setram => exact .inr (.inl ⟨_, rfl⟩)
  | stake ha => exact .inr (.inr (ha.changed hs h).2.2.sameRam)
  | refund he =>
      obtain ⟨req, amount, -, -, -, rfl⟩ := refund_spec hs he
      exact .inr (.inr ⟨⟨fun _ => rfl, rfl⟩, rfl, rfl, rfl, rfl⟩)
  | voteproducer he =>
      have hframe := voteproducer_frame he
      exact .inr (.inr ⟨hframe.toSameResources.sameRam, hframe.toSameMarket⟩)
  | regproxy he =>
      have hframe := regproxy_frame he
      exact .inr (.inr ⟨hframe.toSameResources.sameRam, hframe.toSameMarket⟩)
  | bidname he => exact .inr (.inr ⟨he.toSameResources.sameRam, he.toSameMarket⟩)
  | onblock he => exact .inr (.inr ⟨he.toSameResources.sameRam, he.toSameMarket⟩)
  | quiet _ he => exact .inr (.inr ⟨he.toSameResources.sameRam, he.toSameMarket⟩)

theorem RamInvariant.step {q : ℤ} {s s' : Chain} {e : Event} (h : RamInvariant q s)
    (hexec : exec env s e = .ok s') (hstep : RamStep env s e s') : RamInvariant q s' := by
  have htoken := exec_tokenConserved h.token hexec
  have hrows := h.rows.exec hexec
  obtain ⟨m, hm⟩ := h.market
  obtain ⟨hpurchase, hother⟩ := hstep
  rcases exec_cases hexec with ⟨action, token, hcall, -, rfl⟩ |
    ⟨creator, newact, accounts, sys, system, hcall, -, hsys, hsystem, rfl⟩ |
    ⟨action, sys, r, token, hcall, hsys, hr, hsettle, rfl⟩
  · rw [hcall] at hother
    exact h.of_same htoken hrows ⟨fun _ => rfl, rfl⟩ ⟨rfl, rfl, rfl, rfl⟩
      (hother Bool.false_ne_true)
  · obtain rfl := construct_of_market hm.row hsys
    obtain ⟨hram, hmarket⟩ := newaccount_sameRam hsystem
    rw [hcall] at hother
    exact h.of_same htoken hrows hram hmarket (hother Bool.false_ne_true)
  · obtain rfl := construct_of_market hm.row hsys
    rw [hcall] at hpurchase hother
    by_cases htrade : (Call.system action).isRamTrade
    · cases apply_effect hr with
      | buyram he => exact h.buyram (hpurchase _ rfl) he hsettle
      | buyrambytes hm' hp he =>
          rename_i payer receiver bytes m' p
          have hprice : priceOf env s.system bytes = p.2 := by
            rw [priceOf, hm', Option.elim_some, hp]
          have hok := hpurchase _ rfl
          rw [hprice] at hok
          exact h.buyram hok he hsettle
      | sellram he => exact h.sellram he hsettle
      | stake ha => cases ha <;> cases htrade
      | quiet ha => exact absurd htrade (not_isRamTrade_of_isQuiet ha)
      | _ => cases htrade
    · rcases apply_ram h.rows hr with htrade' | ⟨maxRamSize, rfl⟩ | ⟨hram, hmarket⟩
      · exact absurd htrade' htrade
      · obtain ⟨sys, hset, rfl⟩ := Rollback.map_eq_ok.mp hr
        rw [List.foldlM_nil, Rollback.pure_eq_ok] at hsettle
        exact hsettle ▸ h.setram hset
      · exact h.of_same htoken hrows hram hmarket (hother htrade)

/-! ### Before the market -/

/-- As long as there is no market, there is no RAM to own. -/
structure MarketClosed (s : Chain) : Prop where
  ramOf : ∀ a, s.system.ramOf a = 0
  ramOwned : s.system.ramOwned = 0
  maxRamSize : s.system.global.maxRamSize = 64 * 1024 * 1024 * 1024
  reserved : s.system.global.totalRamBytesReserved = 0
  stake : s.system.global.totalRamStake = 0
  coins : s.coins ramAccount = 0

theorem MarketClosed.of_same {s s' : Chain} (h : MarketClosed s)
    (hram : SameRam s.system s'.system) (hmarket : SameMarket s.system s'.system)
    (hcoins : s'.coins ramAccount = s.coins ramAccount) : MarketClosed s' where
  ramOf a := (hram.ramOf a).trans (h.ramOf a)
  ramOwned := hram.ramOwned.trans h.ramOwned
  maxRamSize := hmarket.maxRamSize.trans h.maxRamSize
  reserved := hmarket.totalRamBytesReserved.trans h.reserved
  stake := hmarket.totalRamStake.trans h.stake
  coins := hcoins.trans h.coins

/-- What holds before the market is created: nothing is booked yet. -/
structure BeforeMarket (s : Chain) : Prop where
  token : Token.Conserved s.token
  rows : StakeRows s.system
  closed : s.system.rammarket = none → MarketClosed s

theorem beforeMarket_init : BeforeMarket {} :=
  ⟨Token.conserved_init, stakeRows_init, fun _ => ⟨fun _ => rfl, rfl, rfl, rfl, rfl, rfl⟩⟩

theorem construct_of_none {token : Token.State} {s s' : State} (hs' : s'.rammarket = none)
    (h : construct token s = .ok s') : s' = s := by
  rcases construct_cases h with rfl | ⟨-, m, rfl, -⟩
  · rfl
  · cases hs'

/-- A trade or a new size leaves a market behind. -/
theorem apply_market {ctx : Ctx} {token : Token.State} {s : State} {a : Action}
    {r : State × List Token.Inline} (h : apply env ctx token s a = .ok r)
    (hnone : r.1.rammarket = none) :
    ¬ (Call.system a).isRamTrade ∧ ∀ maxRamSize, a ≠ .setram maxRamSize := by
  have hbooked : ¬ Booked s r.1 := fun ⟨_, _, _, _, _, hr, _⟩ => by
    rw [hr] at hnone
    cases hnone
  cases apply_effect h with
  | buyram he => exact absurd (buyram_booked he).1 hbooked
  | buyrambytes _ _ he => exact absurd (buyram_booked he).1 hbooked
  | sellram he => exact absurd (sellram_booked he).1 hbooked
  | setram he =>
      obtain ⟨-, -, -, m, -, hr⟩ := setram_cases he
      rw [hr] at hnone
      cases hnone
  | stake ha => cases ha <;> exact ⟨Bool.false_ne_true, fun _ he => by cases he⟩
  | quiet ha =>
      refine ⟨not_isRamTrade_of_isQuiet ha, fun _ he => ?_⟩
      rw [he] at ha
      cases ha
  | _ => exact ⟨Bool.false_ne_true, fun _ he => by cases he⟩

theorem BeforeMarket.step {s s' : Chain} {e : Event} (h : BeforeMarket s)
    (hexec : exec env s e = .ok s') (hstep : RamStep env s e s') : BeforeMarket s' := by
  refine ⟨exec_tokenConserved h.token hexec, h.rows.exec hexec, fun hnone => ?_⟩
  have hother := hstep.2
  rcases exec_cases hexec with ⟨action, token, hcall, -, rfl⟩ |
    ⟨creator, newact, accounts, sys, system, hcall, -, hsys, hsystem, rfl⟩ |
    ⟨action, sys, r, token, hcall, hsys, hr, -, rfl⟩
  · rw [hcall] at hother
    exact (h.closed hnone).of_same ⟨fun _ => rfl, rfl⟩ ⟨rfl, rfl, rfl, rfl⟩
      (hother Bool.false_ne_true)
  · obtain ⟨hram, hmarket⟩ := newaccount_sameRam hsystem
    have hnone' := hmarket.rammarket.symm.trans hnone
    obtain rfl := construct_of_none hnone' hsys
    rw [hcall] at hother
    exact (h.closed hnone').of_same hram hmarket (hother Bool.false_ne_true)
  · obtain ⟨htrade, hset⟩ := apply_market hr hnone
    rw [hcall] at hother
    rcases apply_ram (h.rows.construct hsys) hr with htrade' | ⟨maxRamSize, hset'⟩ |
      ⟨hram, hmarket⟩
    · exact absurd htrade' htrade
    · exact absurd hset' (hset maxRamSize)
    · have hnone' := hmarket.rammarket.symm.trans hnone
      obtain rfl := construct_of_none hnone' hsys
      exact (h.closed hnone').of_same hram hmarket (hother htrade)

/-- The market is created with all RAM free and nothing booked. -/
theorem BeforeMarket.create {s : Chain} {sys : State} {m : ExchangeState} (h : BeforeMarket s)
    (hnone : s.system.rammarket = none) (hcreate : construct s.token s.system = .ok sys)
    (hm : sys.rammarket = some m) : RamInvariant m.quote.units { s with system := sys } := by
  obtain ⟨hramOf, hramOwned, hmax, hreserved, hstake, hcoins⟩ := h.closed hnone
  have hrows := h.rows.construct hcreate
  rcases construct_cases hcreate with rfl | ⟨-, m', rfl, hsupply, hbase, supply, hpos, hquote⟩
  · rw [hnone] at hm
    cases hm
  · obtain rfl := Option.some.inj hm
    have hunits : m'.quote.units = supply.units / 1000 := by
      have hne : supply.amount ≠ Int64.minValue ∨ (1000 : Int64) ≠ -1 := .inr (by decide)
      have hpos' : 0 ≤ supply.amount.toInt := hpos.le
      rw [hquote, Asset.units, Int64.toInt_div_of_ne_right _ _ (by decide)]
      exact Int.tdiv_eq_ediv_of_nonneg hpos'
    have hlt : supply.units < 2 ^ 63 := Int64.toInt_lt supply.amount
    have hfree : s.system.global.freeRam = 64 * 1024 * 1024 * 1024 := by
      rw [GlobalState.freeRam, hmax, hreserved]
      rfl
    have hreserved' : s.system.global.totalRamBytesReserved.toNat = 0 := by rw [hreserved]; rfl
    have hstake' : s.system.global.totalRamStake.toInt = 0 := by rw [hstake]; rfl
    have hmax' : s.system.global.maxRamSize.toNat = 2 ^ 36 := by rw [hmax]; decide
    have hbase' : m'.base.units = 2 ^ 36 := by
      rw [hbase, hfree]
      decide
    refine ⟨h.token, hrows, fun a => (hramOf a).ge, by rw [hmax']; decide, m', rfl,
      ⟨hsupply, by rw [hbase], by rw [hquote]⟩, ?_, ?_, ?_, ?_, hstake'.ge, by omega, by omega⟩
    · rw [hbase', hreserved', hmax']
      rfl
    · rw [hreserved']
      exact hramOwned.symm
    · rw [hstake', sub_self]
    · rw [hstake']
      exact hcoins.symm

/-! ### The law over runs -/

/-- The law holds in every run from the creation of the market on, whatever the
prices are, as long as RAM is paid for in the core token and no purchase takes
a counter around. -/
theorem ram_market_accounting (env : Env) (es es' : List Event) (m : ExchangeState)
    (h : Rollback.Along (exec env) (RamStep env) {} es)
    (hnone : (run env {} es).system.rammarket = none)
    (hm : (run env {} es).constructed.system.rammarket = some m)
    (h' : Rollback.Along (exec env) (RamStep env) (run env {} es).constructed es') :
    RamLaw m.quote.units (run env (run env {} es).constructed es') := by
  have hbefore : BeforeMarket (run env {} es) := Rollback.run_induction_along
    (fun _ _ _ hs hok hstep => hs.step hok hstep) h beforeMarket_init
  have hcreated : RamInvariant m.quote.units (run env {} es).constructed := by
    unfold Chain.constructed at hm ⊢
    split at hm
    · rename_i sys hsys
      exact hbefore.create hnone hsys hm
    · rw [hnone] at hm
      cases hm
  exact (Rollback.run_induction_along (I := RamInvariant m.quote.units)
    (fun _ _ _ hs hok hstep => hs.step hok hstep) h' hcreated).law

/-- Alice holds the core token, and its supply is known to the contract. -/
def aliceBeforeMarket : List Event := genesis [ramAccount, ramfeeAccount, N "alice"] (N "alice")

theorem ram_market_accounting_trades :
    let es : List Event :=
      [⟨[N "alice"], 0, .system (.buyram (N "alice") (N "alice") (core 1000))⟩,
        ⟨[self], 0, .system (.setram 137438953472)⟩,
        ⟨[N "alice"], 0, .system (.buyrambytes (N "alice") (N "alice") 500)⟩,
        ⟨[N "alice"], 0, .system (.sellram (N "alice") 700)⟩]
    RamLaw 10000000000 (run .flat (run .flat {} aliceBeforeMarket).constructed es) ∧
      (run .flat (run .flat {} aliceBeforeMarket).constructed es).coins ramAccount = 792 := by
  refine ⟨?_, by decide +kernel⟩
  exact ram_market_accounting .flat aliceBeforeMarket _
    ⟨⟨100000000000000, ramcoreSymbol⟩, ⟨68719476736, ramSymbol⟩, core 10000000000⟩
    (by decide +kernel) (by decide +kernel) (by decide +kernel) (by decide +kernel)

/-- A token called RAM exists, and Alice buys RAM with it: what she pays goes
into the connector that what she gets comes from. -/
theorem ram_bought_with_ram_token :
    let env : Env := { Env.flat with issued := fun _ _ _ => 144, paid := fun _ _ _ => 197 }
    let es : List Event := aliceBeforeMarket ++
      [⟨[Token.self], 0, .token (.create self ⟨1000, ramSymbol⟩)⟩,
        ⟨[self], 0, .token (.issue (N "alice") ⟨1000, ramSymbol⟩ "")⟩]
    let s := (run env {} es).constructed
    RamLaw 10000000000 s ∧
      ∃ s', exec env s
          ⟨[N "alice"], 0, .system (.buyram (N "alice") (N "alice") ⟨200, ramSymbol⟩)⟩ = .ok s' ∧
        (∃ m ∈ s'.system.rammarket,
          m.base.units + s'.system.global.totalRamBytesReserved.toNat =
            s'.system.global.maxRamSize.toNat + 199) ∧
        ¬ RamLaw 10000000000 s' := by
  decide +kernel

end Xidata.System
