import Xidata.Token.Conservation

/-!
Which transfers succeed.  In a state that conserves its tokens no credit can overflow, as what is
credited has been taken from someone else before.
-/

namespace Xidata.Token

open Eosiolib

variable {t : State} {owner : AccountName} {value quantity : Asset}

theorem balance_le_held (hrows : RowsOk t) (owner : AccountName) (sym : SymbolName) :
    t.balance owner sym ≤ t.held sym := by
  have hnonneg : ∀ k a, t.accounts.find k = some a →
      0 ≤ if k.key = sym then a.balance.units else 0 := by
    intro k a ha
    split
    · exact (hrows k a ha).pos.le
    · exact le_refl (0 : ℤ)
  unfold State.balance
  cases ha : t.accounts.find ⟨owner, sym⟩ with
  | none => exact OrderedTable.sum_nonneg hnonneg
  | some a =>
    have hle := OrderedTable.le_sum hnonneg ha
    simpa [State.held] using hle

/-- The row of a balance that covers a positive amount. -/
theorem exists_row (hpos : 0 < value.units)
    (hcov : value.units ≤ t.balance owner value.symbol.name) :
    ∃ a, t.accounts.find ⟨owner, value.symbol.name⟩ = some a ∧ value.units ≤ a.balance.units := by
  unfold State.balance at hcov
  cases hfind : t.accounts.find ⟨owner, value.symbol.name⟩ with
  | none =>
    rw [hfind, Option.elim_none] at hcov
    omega
  | some a =>
    rw [hfind, Option.elim_some] at hcov
    exact ⟨a, rfl, hcov⟩

/-- The symbol of a row is that of the stat row. -/
theorem RowOk.symbol_eq {k : Scoped} {a : Account} {st : CurrencyStats} (h : RowOk t k a)
    (hst : t.stat.find k.key = some st) : a.balance.symbol = st.supply.symbol := by
  obtain ⟨st', hst', hsym⟩ := h.backed
  rw [hst'] at hst
  cases hst
  exact hsym

theorem subBalance_succeeds {st : CurrencyStats} (hrows : RowsOk t)
    (hst : t.stat.find value.symbol.name = some st) (hsym : value.symbol = st.supply.symbol)
    (hpos : 0 < value.units) (hcov : value.units ≤ t.balance owner value.symbol.name) :
    ∃ t', subBalance t owner value = .ok t' := by
  obtain ⟨a, ha, hle⟩ := exists_row hpos hcov
  have hrow := hrows _ _ ha
  have hsymbol : value.symbol = a.balance.symbol := hsym.trans (hrow.symbol_eq hst).symm
  have hamount : value.amount ≤ a.balance.amount := Int64.le_iff_toInt_le.mpr hle
  by_cases heq : a.balance.amount = value.amount
  · refine ⟨{ t with accounts := t.accounts.erase ⟨owner, value.symbol.name⟩ }, ?_⟩
    simp [subBalance, ha, getRow, eosioAssert, heq]
  · have hbounds := Asset.isAmountWithinRange_iff.mp hrow.inRange
    have hsub : a.balance.sub value = .ok ⟨a.balance.amount - value.amount, a.balance.symbol⟩ := by
      refine Asset.sub_eq_ok.mpr ⟨hsymbol, rfl, Asset.isAmountWithinRange_iff.mpr ?_⟩
      have hunits : (a.balance.amount - value.amount).toInt = a.balance.units - value.units :=
        toInt_sub_of_bounds (by simp only [Asset.units] at *; omega)
          (by simp only [Asset.units] at *; omega)
      simp only [Asset.units] at *
      omega
    simp only [subBalance, ha, getRow, eosioAssert, hamount, heq, hsub, if_true, if_false,
      Rollback.ok_bind]
    exact ⟨_, rfl⟩

theorem addBalance_succeeds {st : CurrencyStats} (hrows : RowsOk t)
    (hst : t.stat.find value.symbol.name = some st) (hsym : value.symbol = st.supply.symbol)
    (hpos : 0 < value.units)
    (hroom : t.balance owner value.symbol.name + value.units ≤ 2 ^ 62 - 1) :
    ∃ t', addBalance t owner value = .ok t' := by
  unfold addBalance
  cases ha : t.accounts.find ⟨owner, value.symbol.name⟩ with
  | none => exact ⟨_, rfl⟩
  | some a =>
    have hrow := hrows _ _ ha
    have hbal : t.balance owner value.symbol.name = a.balance.units := by
      simp [State.balance, ha]
    have hsymbol : value.symbol = a.balance.symbol := hsym.trans (hrow.symbol_eq hst).symm
    have hapos := hrow.pos
    have hadd : a.balance.add value = .ok ⟨a.balance.amount + value.amount, a.balance.symbol⟩ := by
      refine Asset.add_eq_ok.mpr ⟨hsymbol, rfl, Asset.isAmountWithinRange_iff.mpr ?_⟩
      have hunits : (a.balance.amount + value.amount).toInt = a.balance.units + value.units :=
        toInt_add_of_bounds (by simp only [Asset.units] at *; omega)
          (by simp only [Asset.units] at *; omega)
      simp only [Asset.units] at *
      omega
    simp only [hadd, Rollback.ok_bind]
    exact ⟨_, rfl⟩

/-- A transfer succeeds exactly if it is authorised, covered and in the symbol of its token. -/
theorem transfer_succeeds_iff (ht : Conserved t) {c : Ctx} {from_ to_ : AccountName}
    {memo : String} :
    (∃ t', transfer c t from_ to_ quantity memo = .ok t') ↔
      from_ ≠ to_ ∧ from_ ∈ c.auth ∧ c.isAccount to_ ∧
        (∃ st, t.stat.find quantity.symbol.name = some st ∧
          quantity.symbol = st.supply.symbol) ∧
        quantity.isValid ∧ 0 < quantity.units ∧ memo.utf8ByteSize ≤ 256 ∧
        quantity.units ≤ t.balance from_ quantity.symbol.name := by
  constructor
  · rintro ⟨t', h⟩
    have htr := transfer_transferred ht.rows h
    simp only [transfer, Rollback.bind_eq_ok, getRow_eq_ok, eosioAssert_eq_ok,
      requireAuth_eq_ok, exists_const] at h
    obtain ⟨hne, hauth, hacc, st, hst, hvalid, -, hsym, hmemo, -⟩ := h
    exact ⟨hne, hauth, hacc, ⟨st, hst, hsym⟩, hvalid, htr.pos, hmemo, htr.covered⟩
  · rintro ⟨hne, hauth, hacc, ⟨st, hst, hsym⟩, hvalid, hpos, hmemo, hcov⟩
    have hamount : 0 < quantity.amount := Int64.lt_iff_toInt_lt.mpr hpos
    obtain ⟨m, hm⟩ := subBalance_succeeds ht.rows hst hsym hpos hcov
    obtain ⟨hcredited, -⟩ := subBalance_credited ht.rows hvalid.1 hm
    have hstm : m.stat.find quantity.symbol.name = some st := hcredited.stat ▸ hst
    -- The rest of the balances is at most the supply without the quantity.
    have hroom : m.balance to_ quantity.symbol.name + quantity.units ≤ 2 ^ 62 - 1 := by
      have hle := balance_le_held (hcredited.rows ht.rows) to_ quantity.symbol.name
      have hheld := hcredited.held quantity.symbol.name
      obtain ⟨-, -, hsupply, hmax⟩ := ht.stat _ _ hst
      rw [if_pos rfl, ht.held _ _ hst] at hheld
      omega
    obtain ⟨t', ht'⟩ := addBalance_succeeds (hcredited.rows ht.rows) hstm hsym hpos hroom
    refine ⟨t', ?_⟩
    simp only [transfer, Rollback.bind_eq_ok, getRow_eq_ok, eosioAssert_eq_ok,
      requireAuth_eq_ok, exists_const]
    exact ⟨hne, hauth, hacc, st, hst, hvalid, hamount, hsym, hmemo, m, hm, ht'⟩

/-- In every state that the contract reaches, a transfer is refused for a reason that the sender
can see: crediting the receiver never fails. -/
theorem transfer_accepted_iff (es : List Event) (c : Ctx) (from_ to_ : AccountName)
    (quantity : Asset) (memo : String) :
    let t := Rollback.run step State.init es
    (∃ t', transfer c t from_ to_ quantity memo = .ok t') ↔
      from_ ≠ to_ ∧ from_ ∈ c.auth ∧ c.isAccount to_ ∧
        (∃ st, t.stat.find quantity.symbol.name = some st ∧
          quantity.symbol = st.supply.symbol) ∧
        quantity.isValid ∧ 0 < quantity.units ∧ memo.utf8ByteSize ≤ 256 ∧
        quantity.units ≤ t.balance from_ quantity.symbol.name :=
  transfer_succeeds_iff
    (Rollback.run_induction (fun _ _ _ ht h => exec_conserved ht h) es conserved_init)

end Xidata.Token
