import Xidata.System.State

/-!
The RAM market: a relay between two connectors whose prices are left to the
environment.  A conversion between the two connectors goes through the relay's
own supply in two hops.
-/

namespace Xidata.System

open Eosiolib

def ramSymbol : SymbolType := S 0 "RAM"
def ramcoreSymbol : SymbolType := S 4 "RAMCORE"

namespace ExchangeState

variable (env : Env)

/-- `convert_to_exchange`, as the new supply, the new connector balance, and
the amount issued. -/
def convertToExchange (supply c in_ : Asset) : Result (Asset × Asset × Asset) := do
  let issued := env.issued supply.amount (c.amount + in_.amount) in_.amount
  let out ← Asset.make issued supply.symbol
  pure ({ supply with amount := supply.amount + issued },
    { c with amount := c.amount + in_.amount }, out)

/-- `convert_from_exchange`, as the new supply, the new connector balance, and
the amount paid out of the connector. -/
def convertFromExchange (supply c in_ : Asset) : Result (Asset × Asset × Asset) := do
  eosioAssert .convert (in_.symbol = supply.symbol) "unexpected asset symbol input"
  let paid := env.paid (supply.amount - in_.amount) c.amount in_.amount
  let out ← Asset.make paid c.symbol
  pure ({ supply with amount := supply.amount - in_.amount },
    { c with amount := c.amount - paid }, out)

/-- One hop of `convert`, up to its recursive call. -/
def convertHop (m : ExchangeState) (from_ : Asset) (to_ : SymbolType) :
    Result (ExchangeState × Asset) :=
  if from_.symbol ≠ m.supply.symbol then
    if from_.symbol = m.base.symbol then do
      let r ← convertToExchange env m.supply m.base from_
      pure ({ m with supply := r.1, base := r.2.1 }, r.2.2)
    else if from_.symbol = m.quote.symbol then do
      let r ← convertToExchange env m.supply m.quote from_
      pure ({ m with supply := r.1, quote := r.2.1 }, r.2.2)
    else .error (.assertion .convert "invalid sell")
  else
    if to_ = m.base.symbol then do
      let r ← convertFromExchange env m.supply m.base from_
      pure ({ m with supply := r.1, base := r.2.1 }, r.2.2)
    else if to_ = m.quote.symbol then do
      let r ← convertFromExchange env m.supply m.quote from_
      pure ({ m with supply := r.1, quote := r.2.1 }, r.2.2)
    else .error (.assertion .convert "invalid conversion")

/-- `convert` with a bound on its recursion. -/
def convertWithin : ℕ → ExchangeState → Asset → SymbolType → Result (ExchangeState × Asset)
  | 0, _, _, _ => .error (.recursionLimit .convert)
  | depth + 1, m, from_, to_ => do
    let r ← convertHop env m from_ to_
    if to_ ≠ r.2.symbol then convertWithin depth r.1 r.2 to_ else pure r

/-- Two hops always suffice (`convert_avoids_recursionLimit`). -/
def convert (m : ExchangeState) (from_ : Asset) (to_ : SymbolType) :
    Result (ExchangeState × Asset) :=
  convertWithin env 2 m from_ to_

variable {env}

theorem convertHop_supply_symbol {m : ExchangeState} {from_ : Asset} {to_ : SymbolType}
    {r : ExchangeState × Asset} (h : convertHop env m from_ to_ = .ok r) :
    r.1.supply.symbol = m.supply.symbol ∧ r.1.base.symbol = m.base.symbol ∧
      r.1.quote.symbol = m.quote.symbol ∧
      (from_.symbol ≠ m.supply.symbol → r.2.symbol = m.supply.symbol) ∧
      (from_.symbol = m.supply.symbol → r.2.symbol = to_) := by
  unfold convertHop at h
  split at h
  · rename_i hne
    split at h
    · simp only [convertToExchange, Rollback.bind_eq_ok, Asset.make_eq_ok,
        Rollback.pure_eq_ok] at h
      obtain ⟨_, ⟨out, ⟨-, -, rfl⟩, rfl⟩, rfl⟩ := h
      exact ⟨rfl, rfl, rfl, fun _ => rfl, fun he => absurd he hne⟩
    · split at h
      · simp only [convertToExchange, Rollback.bind_eq_ok, Asset.make_eq_ok,
          Rollback.pure_eq_ok] at h
        obtain ⟨_, ⟨out, ⟨-, -, rfl⟩, rfl⟩, rfl⟩ := h
        exact ⟨rfl, rfl, rfl, fun _ => rfl, fun he => absurd he hne⟩
      · cases h
  · rename_i heq
    split at h
    · rename_i hto
      simp only [convertFromExchange, Rollback.bind_eq_ok, eosioAssert_eq_ok, exists_const,
        Asset.make_eq_ok, Rollback.pure_eq_ok] at h
      obtain ⟨_, ⟨-, out, ⟨-, -, rfl⟩, rfl⟩, rfl⟩ := h
      exact ⟨rfl, rfl, rfl, fun hne => absurd hne heq, fun _ => hto.symm⟩
    · split at h
      · rename_i hto
        simp only [convertFromExchange, Rollback.bind_eq_ok, eosioAssert_eq_ok, exists_const,
          Asset.make_eq_ok, Rollback.pure_eq_ok] at h
        obtain ⟨_, ⟨-, out, ⟨-, -, rfl⟩, rfl⟩, rfl⟩ := h
        exact ⟨rfl, rfl, rfl, fun hne => absurd hne heq, fun _ => hto.symm⟩
      · cases h

/-- The first hop ends at the supply or at the goal, the second at the goal. -/
theorem convert_avoids_recursionLimit (m : ExchangeState) (from_ : Asset) (to_ : SymbolType) :
    Rollback.Avoids (fun f => f = .recursionLimit .convert) (m.convert env from_ to_) := by
  have hmake : ∀ a s, Rollback.Avoids (fun f => f = .recursionLimit .convert)
      (Asset.make a s) := fun a s => Asset.avoids_make a s fun _ => by simp
  have hhop : ∀ m from_, Rollback.Avoids (fun f => f = .recursionLimit .convert)
      (convertHop env m from_ to_) := fun m from_ => by
    have hto : ∀ c, Rollback.Avoids (fun f => f = .recursionLimit .convert)
        (convertToExchange env m.supply c from_) := fun c =>
      (hmake _ _).bind fun _ _ => Rollback.avoids_pure _
    have hfrom : ∀ c, Rollback.Avoids (fun f => f = .recursionLimit .convert)
        (convertFromExchange env m.supply c from_) := fun c =>
      (avoids_eosioAssert fun _ => by simp).bind fun _ _ =>
        (hmake _ _).bind fun _ _ => Rollback.avoids_pure _
    unfold convertHop
    split <;> split
    · exact (hto _).bind fun _ _ => Rollback.avoids_pure _
    · split
      · exact (hto _).bind fun _ _ => Rollback.avoids_pure _
      · exact Rollback.avoids_error (by simp)
    · exact (hfrom _).bind fun _ _ => Rollback.avoids_pure _
    · split
      · exact (hfrom _).bind fun _ _ => Rollback.avoids_pure _
      · exact Rollback.avoids_error (by simp)
  simp only [convert, convertWithin]
  refine (hhop m from_).bind fun r hr => ?_
  obtain ⟨hsupply, -, -, hsell, hbuy⟩ := convertHop_supply_symbol hr
  by_cases hne : to_ ≠ r.2.symbol
  · rw [if_pos hne]
    refine (hhop r.1 r.2).bind fun q hq => ?_
    have hfrom : from_.symbol ≠ m.supply.symbol := fun he => hne (hbuy he).symm
    have hq := (convertHop_supply_symbol hq).2.2.2.2 ((hsell hfrom).trans hsupply.symm)
    rw [if_neg (not_not.mpr hq.symm)]
    exact Rollback.avoids_pure _
  · rw [if_neg hne]
    exact Rollback.avoids_pure _

/-! ### Conversions between the connectors -/

/-- The market in the symbols the contract creates it with. -/
structure IsRamMarket (m : ExchangeState) : Prop where
  supply : m.supply.symbol = ramcoreSymbol
  base : m.base.symbol = ramSymbol
  quote : m.quote.symbol = coreSymbol

theorem ramSymbol_ne_ramcoreSymbol : ramSymbol ≠ ramcoreSymbol := by decide +kernel

theorem coreSymbol_ne_ramcoreSymbol : coreSymbol ≠ ramcoreSymbol := by decide +kernel

theorem coreSymbol_ne_ramSymbol : coreSymbol ≠ ramSymbol := by decide +kernel

variable {m : ExchangeState} {from_ : Asset} {to_ : SymbolType} {r p : ExchangeState × Asset}

theorem IsRamMarket.hop (hm : m.IsRamMarket) (h : convertHop env m from_ to_ = .ok r) :
    r.1.IsRamMarket := by
  obtain ⟨hs, hb, hq, -, -⟩ := convertHop_supply_symbol h
  exact ⟨hs.trans hm.supply, hb.trans hm.base, hq.trans hm.quote⟩

/-- The hop into the supply adds the input to its connector. -/
theorem IsRamMarket.hop_in_quote (hm : m.IsRamMarket) (hfrom : from_.symbol = coreSymbol)
    (h : convertHop env m from_ to_ = .ok r) :
    r.1.quote.amount = m.quote.amount + from_.amount ∧ r.1.base = m.base ∧
      r.2.symbol = ramcoreSymbol := by
  rw [convertHop, hfrom, hm.supply, hm.base, hm.quote, if_pos coreSymbol_ne_ramcoreSymbol,
    if_neg coreSymbol_ne_ramSymbol, if_pos rfl] at h
  simp only [convertToExchange, Rollback.bind_eq_ok, Asset.make_eq_ok, Rollback.pure_eq_ok] at h
  obtain ⟨_, ⟨out, ⟨-, -, rfl⟩, rfl⟩, rfl⟩ := h
  exact ⟨rfl, rfl, hm.supply⟩

theorem IsRamMarket.hop_in_base (hm : m.IsRamMarket) (hfrom : from_.symbol = ramSymbol)
    (h : convertHop env m from_ to_ = .ok r) :
    r.1.base.amount = m.base.amount + from_.amount ∧ r.1.quote = m.quote ∧
      r.2.symbol = ramcoreSymbol := by
  rw [convertHop, hfrom, hm.supply, hm.base, if_pos ramSymbol_ne_ramcoreSymbol, if_pos rfl] at h
  simp only [convertToExchange, Rollback.bind_eq_ok, Asset.make_eq_ok, Rollback.pure_eq_ok] at h
  obtain ⟨_, ⟨out, ⟨-, -, rfl⟩, rfl⟩, rfl⟩ := h
  exact ⟨rfl, rfl, hm.supply⟩

/-- The hop out of the supply takes what it returns from its connector. -/
theorem IsRamMarket.hop_out_base (hm : m.IsRamMarket) (hfrom : from_.symbol = ramcoreSymbol)
    (h : convertHop env m from_ ramSymbol = .ok r) :
    r.1.base.amount = m.base.amount - r.2.amount ∧ r.1.quote = m.quote ∧
      r.2.symbol = ramSymbol ∧ r.2.isAmountWithinRange := by
  rw [convertHop, hfrom, hm.supply, hm.base, if_neg (not_not.mpr rfl), if_pos rfl] at h
  simp only [convertFromExchange, Rollback.bind_eq_ok, eosioAssert_eq_ok, exists_const,
    Asset.make_eq_ok, Rollback.pure_eq_ok] at h
  obtain ⟨_, ⟨-, out, ⟨hrange, -, rfl⟩, rfl⟩, rfl⟩ := h
  exact ⟨rfl, rfl, hm.base, hrange⟩

theorem IsRamMarket.hop_out_quote (hm : m.IsRamMarket) (hfrom : from_.symbol = ramcoreSymbol)
    (h : convertHop env m from_ coreSymbol = .ok r) :
    r.1.quote.amount = m.quote.amount - r.2.amount ∧ r.1.base = m.base ∧
      r.2.symbol = coreSymbol ∧ r.2.isAmountWithinRange := by
  rw [convertHop, hfrom, hm.supply, hm.base, hm.quote, if_neg (not_not.mpr rfl),
    if_neg coreSymbol_ne_ramSymbol, if_pos rfl] at h
  simp only [convertFromExchange, Rollback.bind_eq_ok, eosioAssert_eq_ok, exists_const,
    Asset.make_eq_ok, Rollback.pure_eq_ok] at h
  obtain ⟨_, ⟨-, out, ⟨hrange, -, rfl⟩, rfl⟩, rfl⟩ := h
  exact ⟨rfl, rfl, hm.quote, hrange⟩

/-- Between two connectors a conversion is two hops. -/
theorem convert_hops (hfrom : from_.symbol ≠ m.supply.symbol) (hto : to_ ≠ m.supply.symbol)
    (h : m.convert env from_ to_ = .ok p) :
    ∃ r, convertHop env m from_ to_ = .ok r ∧ convertHop env r.1 r.2 to_ = .ok p := by
  simp only [convert, convertWithin, Rollback.bind_eq_ok] at h
  obtain ⟨r, hr, h⟩ := h
  have hsym := (convertHop_supply_symbol hr).2.2.2.1 hfrom
  rw [if_pos (hsym ▸ hto), Rollback.bind_eq_ok] at h
  obtain ⟨q, hq, h⟩ := h
  split at h
  · cases h
  · cases h
    exact ⟨r, hr, hq⟩

/-- A payment in the core token: the quote connector grows by the payment, and
the bytes paid out come from the base connector. -/
theorem IsRamMarket.convert_buy (hm : m.IsRamMarket) (hfrom : from_.symbol = coreSymbol)
    (h : m.convert env from_ ramSymbol = .ok p) :
    p.1.IsRamMarket ∧ p.1.quote.amount = m.quote.amount + from_.amount ∧
      p.1.base.amount = m.base.amount - p.2.amount ∧ p.2.isAmountWithinRange := by
  obtain ⟨r, hr, hp⟩ := convert_hops (by rw [hfrom, hm.supply]; exact coreSymbol_ne_ramcoreSymbol)
    (by rw [hm.supply]; exact ramSymbol_ne_ramcoreSymbol) h
  obtain ⟨hquote, hbase, hsym⟩ := hm.hop_in_quote hfrom hr
  obtain ⟨hbase', hquote', -, hrange⟩ := (hm.hop hr).hop_out_base hsym hp
  exact ⟨(hm.hop hr).hop hp, by rw [hquote', hquote], by rw [hbase', hbase], hrange⟩

/-- A sale of bytes: the base connector gets them back, and what is paid out
comes from the quote connector. -/
theorem IsRamMarket.convert_sell (hm : m.IsRamMarket) (hfrom : from_.symbol = ramSymbol)
    (h : m.convert env from_ coreSymbol = .ok p) :
    p.1.IsRamMarket ∧ p.1.base.amount = m.base.amount + from_.amount ∧
      p.1.quote.amount = m.quote.amount - p.2.amount ∧ p.2.symbol = coreSymbol ∧
      p.2.isAmountWithinRange := by
  obtain ⟨r, hr, hp⟩ := convert_hops (by rw [hfrom, hm.supply]; exact ramSymbol_ne_ramcoreSymbol)
    (by rw [hm.supply]; exact coreSymbol_ne_ramcoreSymbol) h
  obtain ⟨hbase, hquote, hsym⟩ := hm.hop_in_base hfrom hr
  obtain ⟨hquote', hbase', hout, hrange⟩ := (hm.hop hr).hop_out_quote hsym hp
  exact ⟨(hm.hop hr).hop hp, by rw [hbase', hbase], by rw [hquote', hquote], hout, hrange⟩

/-- Nothing is sold in a symbol the market does not know. -/
theorem IsRamMarket.convert_symbol (hm : m.IsRamMarket) (h : m.convert env from_ to_ = .ok p) :
    from_.symbol = ramcoreSymbol ∨ from_.symbol = ramSymbol ∨ from_.symbol = coreSymbol := by
  simp only [convert, convertWithin, Rollback.bind_eq_ok] at h
  obtain ⟨r, hr, -⟩ := h
  unfold convertHop at hr
  rw [hm.supply, hm.base, hm.quote] at hr
  split at hr
  · split at hr
    · rename_i hbase
      exact .inr (.inl hbase)
    · split at hr
      · rename_i hquote
        exact .inr (.inr hquote)
      · cases hr
  · rename_i hsupply
    exact .inl (not_not.mp hsupply)

end ExchangeState

end Xidata.System
