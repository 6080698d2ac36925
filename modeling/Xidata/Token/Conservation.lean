import Xidata.Token.Contract

/-!
Conservation of tokens.  The balances of all owners add up to the supply of
their symbol in every state the contract can reach.

Both primitives that touch a balance, `subBalance` and `addBalance`, write one
row of the accounts table; `Credited` says what such a write does to the
balances, to their sums and to the rows.  An action is a short sequence of
credits, and the law follows from what each credit adds to a sum.
-/

namespace Xidata.Token

open Eosiolib

/-! ### The law -/

/-- What an owner holds of a symbol; nothing when there is no row. -/
def State.balance (t : State) (owner : AccountName) (sym : SymbolName) : ℤ :=
  (t.accounts.find ⟨owner, sym⟩).elim 0 fun a => a.balance.units

/-- The sum of the balances of a symbol over all owners. -/
def State.held (t : State) (sym : SymbolName) : ℤ :=
  t.accounts.sum fun k a => if k.key = sym then a.balance.units else 0

/-- A stored balance is positive and carries the symbol, precision included,
of the stat row it belongs to. -/
structure RowOk (t : State) (k : Scoped) (a : Account) : Prop where
  pos : 0 < a.balance.units
  inRange : a.balance.isAmountWithinRange
  backed : ∃ st, t.stat.find k.key = some st ∧ a.balance.symbol = st.supply.symbol

def RowsOk (t : State) : Prop := ∀ k a, t.accounts.find k = some a → RowOk t k a

/-- No owner holds more than the largest amount. -/
theorem balance_le {t : State} (ht : RowsOk t) (owner : AccountName) (sym : SymbolName) :
    t.balance owner sym ≤ 2 ^ 62 - 1 := by
  unfold State.balance
  cases ha : t.accounts.find ⟨owner, sym⟩ with
  | none => decide
  | some a => exact (Asset.isAmountWithinRange_iff.mp (ht _ _ ha).inRange).2

theorem balance_nonneg {t : State} (ht : RowsOk t) (owner : AccountName) (sym : SymbolName) :
    0 ≤ t.balance owner sym := by
  unfold State.balance
  cases ha : t.accounts.find ⟨owner, sym⟩ with
  | none => exact le_refl (0 : ℤ)
  | some a => exact (ht _ _ ha).pos.le

structure StatOk (sym : SymbolName) (st : CurrencyStats) : Prop where
  name : st.supply.symbol.name = sym
  supply_nonneg : 0 ≤ st.supply.units
  supply_le : st.supply.units ≤ st.maxSupply.units
  max_le : st.maxSupply.units ≤ 2 ^ 62 - 1

/-- The conservation law of the two tables. -/
structure Conserved (t : State) : Prop where
  rows : RowsOk t
  stat : ∀ sym st, t.stat.find sym = some st → StatOk sym st
  held : ∀ sym st, t.stat.find sym = some st → t.held sym = st.supply.units

/-! ### One write to the accounts table -/

/-- `t'` is `t` with `x` more of `sym` on the balance of `owner`. -/
structure Credited (t t' : State) (owner : AccountName) (sym : SymbolName) (x : ℤ) : Prop where
  stat : t'.stat = t.stat
  balance : ∀ a s, t'.balance a s = t.balance a s + if a = owner ∧ s = sym then x else 0
  held : ∀ s, t'.held s = t.held s + if s = sym then x else 0
  rows : RowsOk t → RowsOk t'

theorem RowOk.of_stat {t t' : State} {k : Scoped} {a : Account} (h : RowOk t k a)
    (hstat : t'.stat = t.stat) : RowOk t' k a :=
  ⟨h.pos, h.inRange, hstat ▸ h.backed⟩

theorem credited_set {t : State} {owner : AccountName} {sym : SymbolName} {a : Account}
    (ha : RowOk t ⟨owner, sym⟩ a) :
    Credited t { t with accounts := t.accounts.set ⟨owner, sym⟩ a } owner sym
      (a.balance.units - t.balance owner sym) where
  stat := rfl
  balance b s := by
    by_cases hk : b = owner ∧ s = sym
    · obtain ⟨rfl, rfl⟩ := hk
      simp [State.balance]
    · have hne : (⟨b, s⟩ : Scoped) ≠ ⟨owner, sym⟩ := by simpa using hk
      simp [State.balance, OrderedTable.find_set_of_ne _ hne, hk]
  held s := by
    have hsum := t.accounts.sum_set_sub ⟨owner, sym⟩ a
      fun k a => if k.key = s then a.balance.units else 0
    simp only [State.held, hsum, State.balance]
    by_cases hs : s = sym
    · subst hs
      cases t.accounts.find ⟨owner, s⟩ <;> simp
    · cases t.accounts.find ⟨owner, sym⟩ <;> simp [hs, Ne.symm hs]
  rows hrows k b hb := by
    rw [OrderedTable.find_set] at hb
    split at hb
    · cases hb
      rename_i hk
      subst hk
      exact ha.of_stat rfl
    · exact (hrows k b hb).of_stat rfl

theorem credited_erase (t : State) (owner : AccountName) (sym : SymbolName) :
    Credited t { t with accounts := t.accounts.erase ⟨owner, sym⟩ } owner sym
      (-t.balance owner sym) where
  stat := rfl
  balance b s := by
    by_cases hk : b = owner ∧ s = sym
    · obtain ⟨rfl, rfl⟩ := hk
      simp [State.balance]
    · have hne : (⟨b, s⟩ : Scoped) ≠ ⟨owner, sym⟩ := by simpa using hk
      simp [State.balance, OrderedTable.find_erase_of_ne _ hne, hk]
  held s := by
    have hsum := t.accounts.sum_erase_sub ⟨owner, sym⟩
      fun k a => if k.key = s then a.balance.units else 0
    simp only [State.held, hsum, State.balance]
    by_cases hs : s = sym
    · subst hs
      cases t.accounts.find ⟨owner, s⟩ <;> simp [sub_eq_add_neg]
    · cases t.accounts.find ⟨owner, sym⟩ <;> simp [hs, Ne.symm hs]
  rows hrows k b hb := by
    rw [OrderedTable.find_erase] at hb
    split at hb
    · cases hb
    · exact (hrows k b hb).of_stat rfl

/-! ### The two primitives -/

theorem subBalance_credited {t t' : State} {owner : AccountName} {value : Asset}
    (hrows : RowsOk t) (hv : value.isAmountWithinRange)
    (h : subBalance t owner value = .ok t') :
    Credited t t' owner value.symbol.name (-value.units) ∧
      value.units ≤ t.balance owner value.symbol.name := by
  simp only [subBalance, Rollback.bind_eq_ok, getRow_eq_ok, eosioAssert_eq_ok,
    exists_const] at h
  obtain ⟨from_, hfrom, hle, h⟩ := h
  have hbal : t.balance owner value.symbol.name = from_.balance.units := by
    simp [State.balance, hfrom]
  have hrow := hrows _ _ hfrom
  rw [Int64.le_iff_toInt_le] at hle
  refine ⟨?_, hbal ▸ hle⟩
  split at h
  · rename_i heq
    have hunits : from_.balance.units = value.units := by simp [Asset.units, heq]
    rw [← hunits, ← hbal]
    cases h
    exact credited_erase t owner value.symbol.name
  · rename_i hne
    simp only [Rollback.bind_eq_ok, Rollback.pure_eq_ok] at h
    obtain ⟨balance, hsub, rfl⟩ := h
    have hunits := Asset.sub_units hrow.inRange hv hsub
    obtain ⟨hsym, hbalance, hrange⟩ := Asset.sub_eq_ok.mp hsub
    have hlt : value.units ≠ from_.balance.units := fun he =>
      hne (Int64.toInt_inj.mp he.symm)
    have hle' : value.units ≤ from_.balance.units := hle
    have hset : Credited t
        { t with accounts := t.accounts.set ⟨owner, value.symbol.name⟩ ⟨balance⟩ } owner
        value.symbol.name (balance.units - t.balance owner value.symbol.name) := credited_set
      ⟨show 0 < balance.units by omega, hrange, by simpa [hbalance] using hrow.backed⟩
    have hdelta : balance.units - t.balance owner value.symbol.name = -value.units := by
      omega
    simpa only [hdelta] using hset

theorem addBalance_credited {t t' : State} {owner : AccountName} {value : Asset}
    (hrows : RowsOk t) (hv : RowOk t ⟨owner, value.symbol.name⟩ ⟨value⟩)
    (h : addBalance t owner value = .ok t') :
    Credited t t' owner value.symbol.name value.units := by
  have hset := fun a (ha : RowOk t ⟨owner, value.symbol.name⟩ a) => credited_set ha
  unfold addBalance at h
  split at h
  · rename_i hnone
    rw [Rollback.pure_eq_ok] at h
    subst h
    simpa [State.balance, hnone] using hset ⟨value⟩ hv
  · rename_i to_ hto
    simp only [Rollback.bind_eq_ok, Rollback.pure_eq_ok] at h
    obtain ⟨balance, hadd, rfl⟩ := h
    have hrow := hrows _ _ hto
    have hunits : balance.units = to_.balance.units + value.units :=
      Asset.add_units hrow.inRange hv.inRange hadd
    obtain ⟨hsym, hbalance, hrange⟩ := Asset.add_eq_ok.mp hadd
    have hpos := hrow.pos
    have hvpos : 0 < value.units := hv.pos
    have hdelta : balance.units - t.balance owner value.symbol.name = value.units := by
      simp only [State.balance, hto, Option.elim_some]
      omega
    have hnew : RowOk t ⟨owner, value.symbol.name⟩ ⟨balance⟩ :=
      ⟨show 0 < balance.units by omega, hrange, by simpa [hbalance] using hrow.backed⟩
    simpa only [hdelta] using hset ⟨balance⟩ hnew

/-! ### The actions -/

/-- A successful transfer moves `quantity` from one owner to another, changes
nothing else, and was authorised by the one who pays. -/
structure Transferred (c : Ctx) (t t' : State) (from_ to_ : AccountName) (quantity : Asset) :
    Prop where
  authorised : from_ ∈ c.auth
  isAccount : c.isAccount to_
  ne : from_ ≠ to_
  pos : 0 < quantity.units
  inRange : quantity.isAmountWithinRange
  covered : quantity.units ≤ t.balance from_ quantity.symbol.name
  stat : t'.stat = t.stat
  balance : ∀ a s, t'.balance a s = t.balance a s +
    (if a = from_ ∧ s = quantity.symbol.name then -quantity.units else 0) +
    (if a = to_ ∧ s = quantity.symbol.name then quantity.units else 0)
  held : ∀ s, t'.held s = t.held s
  rows : RowsOk t'

theorem transfer_transferred {c : Ctx} {t t' : State} {from_ to_ : AccountName}
    {quantity : Asset} {memo : String} (hrows : RowsOk t)
    (h : transfer c t from_ to_ quantity memo = .ok t') :
    Transferred c t t' from_ to_ quantity := by
  simp only [transfer, Rollback.bind_eq_ok, getRow_eq_ok, eosioAssert_eq_ok,
    requireAuth_eq_ok, exists_const] at h
  obtain ⟨hne, hauth, hacc, st, hst, hvalid, hpos, hsym, -, m, hsub, hadd⟩ := h
  have hunits : 0 < quantity.units := Int64.lt_iff_toInt_lt.mp hpos
  obtain ⟨hsub, hcov⟩ := subBalance_credited hrows hvalid.1 hsub
  have hquantity : RowOk m ⟨to_, quantity.symbol.name⟩ ⟨quantity⟩ :=
    ⟨hunits, hvalid.1, st, hsub.stat ▸ hst, hsym⟩
  have hadd := addBalance_credited (hsub.rows hrows) hquantity hadd
  exact {
    authorised := hauth
    isAccount := hacc
    ne := hne
    pos := hunits
    inRange := hvalid.1
    covered := hcov
    stat := hadd.stat.trans hsub.stat
    balance := fun a s => by rw [hadd.balance, hsub.balance]
    held := fun s => by
      rw [hadd.held, hsub.held]
      split <;> omega
    rows := hadd.rows (hsub.rows hrows) }

theorem subBalance_not_overdrawn {t : State} {owner : AccountName} {value : Asset}
    (hpos : 0 < value.units) (hcov : value.units ≤ t.balance owner value.symbol.name) :
    Rollback.Avoids (fun f => f.site? = some .subBalance) (subBalance t owner value) := by
  have hrow : ∃ a, t.accounts.find ⟨owner, value.symbol.name⟩ = some a ∧
      value.units ≤ a.balance.units := by
    unfold State.balance at hcov
    cases hfind : t.accounts.find ⟨owner, value.symbol.name⟩ with
    | none =>
        rw [hfind, Option.elim_none] at hcov
        omega
    | some a =>
        rw [hfind, Option.elim_some] at hcov
        exact ⟨a, rfl, hcov⟩
  obtain ⟨a, hfind, hle⟩ := hrow
  unfold subBalance
  rw [hfind, getRow, Rollback.ok_bind]
  refine (avoids_eosioAssert fun hno => absurd (Int64.le_iff_toInt_le.mpr hle) hno).bind
    fun _ _ => ?_
  split
  · exact Rollback.avoids_pure _
  · exact (Asset.avoids_sub _ _ fun _ => by simp [Failure.site?]).bind fun _ _ =>
      Rollback.avoids_pure _

/-- A transfer that is covered does not fail for want of balance. -/
theorem transfer_not_overdrawn {c : Ctx} {t : State} {from_ to_ : AccountName}
    {quantity : Asset} {memo : String}
    (hcov : quantity.units ≤ t.balance from_ quantity.symbol.name) :
    Rollback.Avoids (fun f => f.site? = some .subBalance)
      (transfer c t from_ to_ quantity memo) := by
  have hother : ∀ {site : Site} {msg : String}, site ≠ .subBalance →
      ¬ (Failure.assertion site msg).site? = some .subBalance := fun hne he =>
    hne (Option.some.inj he)
  unfold transfer
  refine (avoids_eosioAssert fun _ => hother (by decide)).bind fun _ _ => ?_
  refine (avoids_requireAuth (by simp [Failure.site?])).bind fun _ _ => ?_
  refine (avoids_eosioAssert fun _ => hother (by decide)).bind fun _ _ => ?_
  refine (avoids_getRow fun _ => hother (by decide)).bind fun st _ => ?_
  refine (avoids_eosioAssert fun _ => hother (by decide)).bind fun _ _ => ?_
  refine (avoids_eosioAssert fun _ => hother (by decide)).bind fun _ hpos => ?_
  refine (avoids_eosioAssert fun _ => hother (by decide)).bind fun _ _ => ?_
  refine (avoids_eosioAssert fun _ => hother (by decide)).bind fun _ _ => ?_
  have hunits : 0 < quantity.units := Int64.lt_iff_toInt_lt.mp (eosioAssert_eq_ok.mp hpos)
  refine (subBalance_not_overdrawn hunits hcov).bind fun m _ => ?_
  unfold addBalance
  split
  · exact Rollback.avoids_pure _
  · exact (Asset.avoids_add _ _ fun _ => hother (by decide)).bind fun _ _ =>
      Rollback.avoids_pure _

theorem Transferred.conserved {c : Ctx} {t t' : State} {from_ to_ : AccountName}
    {quantity : Asset} (h : Transferred c t t' from_ to_ quantity) (ht : Conserved t) :
    Conserved t' where
  rows := h.rows
  stat sym st hst := ht.stat sym st (h.stat ▸ hst)
  held sym st hst := by rw [h.held, ht.held sym st (h.stat ▸ hst)]

/-- A symbol without a stat row has no balances. -/
theorem Conserved.held_of_none {t : State} (ht : Conserved t) {sym : SymbolName}
    (h : t.stat.find sym = none) : t.held sym = 0 := by
  refine OrderedTable.sum_eq_zero fun k a ha => ?_
  obtain ⟨st, hst, -⟩ := (ht.rows k a ha).backed
  split
  · rename_i hk
    rw [hk, h] at hst
    cases hst
  · rfl

theorem create_conserved {c : Ctx} {t t' : State} {issuer : AccountName}
    {maximumSupply : Asset} (ht : Conserved t)
    (h : create c t issuer maximumSupply = .ok t') : Conserved t' := by
  simp only [create, Rollback.bind_eq_ok, eosioAssert_eq_ok, requireAuth_eq_ok,
    exists_const, Rollback.pure_eq_ok] at h
  obtain ⟨-, -, hvalid, hpos, hnone, rfl⟩ := h
  have hmax := (Asset.isAmountWithinRange_iff.mp hvalid.1).2
  have hunits : 0 < maximumSupply.units := Int64.lt_iff_toInt_lt.mp hpos
  refine ⟨fun k a ha => ?_, fun sym st hst => ?_, fun sym st hst => ?_⟩
  · obtain ⟨st, hst, hsym⟩ := (ht.rows k a ha).backed
    refine ⟨(ht.rows k a ha).pos, (ht.rows k a ha).inRange, st, ?_, hsym⟩
    rw [OrderedTable.find_set_of_ne]
    · exact hst
    · rintro hk
      rw [hk, hnone] at hst
      cases hst
  · rw [OrderedTable.find_set] at hst
    split at hst
    · cases hst
      rename_i hs
      exact ⟨hs.symm, le_refl (0 : ℤ), hunits.le, hmax⟩
    · exact ht.stat sym st hst
  · rw [OrderedTable.find_set] at hst
    split at hst
    · cases hst
      rename_i hs
      subst hs
      exact ht.held_of_none hnone
    · exact ht.held sym st hst

/-- What `issue` does before its inline transfer: the supply and the issuer's
balance both grow by `quantity`. -/
structure Issued (c : Ctx) (t t' : State) (quantity : Asset) (st : CurrencyStats) : Prop where
  found : t.stat.find quantity.symbol.name = some st
  authorised : st.issuer ∈ c.auth
  pos : 0 < quantity.units
  room : quantity.units ≤ st.maxSupply.units - st.supply.units
  stat : ∃ supply : Asset, supply.units = st.supply.units + quantity.units ∧
    supply.symbol = st.supply.symbol ∧
    t'.stat = t.stat.set quantity.symbol.name { st with supply }
  balance : ∀ a s, t'.balance a s = t.balance a s +
    if a = st.issuer ∧ s = quantity.symbol.name then quantity.units else 0
  held : ∀ s, t'.held s = t.held s + if s = quantity.symbol.name then quantity.units else 0
  rows : RowsOk t'

/-- Only a transfer to a different recipient is sent. -/
theorem issue_issued {c : Ctx} {t : State} {to_ : AccountName} {quantity : Asset}
    {memo : String} {r : State × List Inline} (ht : Conserved t)
    (h : issue c t to_ quantity memo = .ok r) :
    ∃ st, Issued c t r.1 quantity st ∧ memo.utf8ByteSize ≤ 256 ∧
      r.2 = if to_ ≠ st.issuer then [⟨[st.issuer], .transfer st.issuer to_ quantity memo⟩]
        else [] := by
  simp only [issue, Rollback.bind_eq_ok, getRow_eq_ok, eosioAssert_eq_ok,
    requireAuth_eq_ok, exists_const, Rollback.pure_eq_ok] at h
  obtain ⟨-, hmemo, st, hst, hauth, hvalid, hpos, hsym, hle, supply, hsupply, m, hadd, rfl⟩ := h
  have hunits : 0 < quantity.units := Int64.lt_iff_toInt_lt.mp hpos
  obtain ⟨hname, hnonneg, hsle, hmax⟩ := ht.stat _ _ hst
  have hrange := Asset.isAmountWithinRange_iff.mp hvalid.1
  -- the asserted bound on the quantity is exact: both stored amounts are in range
  have hroom : quantity.units ≤ st.maxSupply.units - st.supply.units := by
    rw [Int64.le_iff_toInt_le, Int64.toInt_sub] at hle
    rw [Asset.bmod_eq_self (by simp only [Asset.units] at *; omega)
      (by simp only [Asset.units] at *; omega)] at hle
    exact hle
  have hsupplyRange : st.supply.isAmountWithinRange :=
    Asset.isAmountWithinRange_iff.mpr (by omega)
  have hnew := Asset.add_units hsupplyRange hvalid.1 hsupply
  obtain ⟨-, hsupplyEq, -⟩ := Asset.add_eq_ok.mp hsupply
  have hsupplySym : supply.symbol = st.supply.symbol := by rw [hsupplyEq]
  -- the tables with the larger supply, before the issuer is credited
  have hmid : RowsOk { t with stat := t.stat.set quantity.symbol.name { st with supply } } := by
    intro k a ha
    obtain ⟨hp, hr, st', hst', hs'⟩ := ht.rows k a ha
    by_cases hk : k.key = quantity.symbol.name
    · refine ⟨hp, hr, { st with supply }, by rw [hk]; exact OrderedTable.find_set_self .., ?_⟩
      rw [hk, hst] at hst'
      cases hst'
      exact hs'.trans hsupplySym.symm
    · exact ⟨hp, hr, st', by rw [OrderedTable.find_set_of_ne _ hk]; exact hst', hs'⟩
  have hcredit := addBalance_credited hmid
    ⟨hunits, hvalid.1, { st with supply }, OrderedTable.find_set_self .., by
      rw [hsupplySym]; exact hsym⟩ hadd
  exact ⟨st, ⟨hst, hauth, hunits, hroom, ⟨supply, hnew, hsupplySym, hcredit.stat⟩,
    hcredit.balance, hcredit.held, hcredit.rows hmid⟩, hmemo, rfl⟩

theorem Issued.conserved {c : Ctx} {t t' : State} {quantity : Asset} {st : CurrencyStats}
    (h : Issued c t t' quantity st) (ht : Conserved t) : Conserved t' := by
  obtain ⟨supply, hunits, hsymbol, hstat⟩ := h.stat
  obtain ⟨hname, hnonneg, -, hmax⟩ := ht.stat _ _ h.found
  have hpos := h.pos
  have hroom := h.room
  refine ⟨h.rows, fun sym st' hst' => ?_, fun sym st' hst' => ?_⟩
  · rw [hstat, OrderedTable.find_set] at hst'
    split at hst'
    · cases hst'
      rename_i hs
      exact ⟨by rw [hsymbol, hname, hs], by simp only; omega, by simp only; omega, hmax⟩
    · exact ht.stat sym st' hst'
  · rw [hstat, OrderedTable.find_set] at hst'
    rw [h.held]
    split at hst'
    · cases hst'
      rename_i hs
      rw [if_pos hs, hs, ht.held _ _ h.found, hunits]
    · rename_i hs
      rw [if_neg hs, add_zero]
      exact ht.held sym st' hst'

theorem applyInline_transfer {c : Ctx} {t t' : State} {auth : List AccountName}
    {from_ to_ : AccountName} {quantity : Asset} {memo : String} :
    applyInline c t ⟨auth, .transfer from_ to_ quantity memo⟩ = .ok t' ↔
      transfer { c with auth } t from_ to_ quantity memo = .ok t' := by
  simp [applyInline, apply]

/-- Every successful action, with the inline transfer it may send, keeps the law. -/
theorem exec_conserved {c : Ctx} {t t' : State} {a : Action} (ht : Conserved t)
    (h : exec c t a = .ok t') : Conserved t' := by
  simp only [exec, Rollback.bind_eq_ok] at h
  obtain ⟨r, hr, h⟩ := h
  cases a with
  | create issuer maximumSupply =>
      simp only [apply, Rollback.map_eq_ok] at hr
      obtain ⟨m, hm, rfl⟩ := hr
      rw [List.foldlM_nil, Rollback.pure_eq_ok] at h
      exact h ▸ create_conserved ht hm
  | issue to_ quantity memo =>
      obtain ⟨st, hissued, -, hsent⟩ := issue_issued ht hr
      have hcons := hissued.conserved ht
      rw [hsent] at h
      split at h
      · have hm := Rollback.foldlM_singleton_eq_ok.mp h
        exact (transfer_transferred hcons.rows (applyInline_transfer.mp hm)).conserved hcons
      · rw [List.foldlM_nil, Rollback.pure_eq_ok] at h
        exact h ▸ hcons
  | transfer from_ to_ quantity memo =>
      simp only [apply, Rollback.map_eq_ok] at hr
      obtain ⟨m, hm, rfl⟩ := hr
      rw [List.foldlM_nil, Rollback.pure_eq_ok] at h
      exact h ▸ (transfer_transferred ht.rows hm).conserved ht

theorem conserved_init : Conserved State.init where
  rows k a ha := by cases ha
  stat sym st hst := by cases hst
  held sym st hst := by cases hst

/-! ### Runs -/

/-- An action pushed by any account, at any time, with any set of accounts. -/
structure Event where
  ctx : Ctx
  action : Action

def step (t : State) (e : Event) : Result State := exec e.ctx t e.action

/-- In every state the contract reaches from empty tables, by any sequence of
actions, failed ones rolled back: the balances of each symbol add up to its
supply, the supply stays between zero and the maximum, which is at most
`2 ^ 62 - 1`, and every balance is positive and in the symbol of its stat row. -/
theorem conservation (es : List Event) : Conserved (Rollback.run step State.init es) :=
  Rollback.run_induction (fun _ _ _ ht h => exec_conserved ht h) es conserved_init

end Xidata.Token
