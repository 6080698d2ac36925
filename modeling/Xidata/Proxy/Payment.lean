import Xidata.Proxy.Forwarding
import Xidata.Token.Acceptance

/-!
Who gets the tokens of a proxy, and which of the pending transactions can be executed.
-/

namespace Xidata.Proxy

open Eosiolib

variable {self : AccountName} {c : Ctx} {w w' : Chain} {sym : SymbolName}

/-! ### Payments go to the owner -/

/-- What the account loses is what the one who owns the proxy gets. -/
def PaysOwner (account : AccountName) (w w' : Chain) : Prop :=
  ∀ sym, w'.token.balance account sym < w.token.balance account sym →
    ∃ codeConfig, w.proxy.config = some codeConfig ∧
      w'.token.balance codeConfig.owner sym - w.token.balance codeConfig.owner sym =
        w.token.balance account sym - w'.token.balance account sym

theorem amount_nonneg {quantity : Asset} (h : 0 < quantity.units) : 0 ≤ amount sym quantity := by
  unfold amount
  split <;> omega

theorem balance_of_issued {t t' : Token.State} {quantity : Asset} {st : Token.CurrencyStats}
    (h : Token.Issued c t t' quantity st) (a : AccountName) (sym : SymbolName) :
    t'.balance a sym = t.balance a sym + if a = st.issuer then amount sym quantity else 0 := by
  rw [h.balance]
  unfold amount
  have hswap : (sym = quantity.symbol.name) = (quantity.symbol.name = sym) := propext eq_comm
  simp only [hswap, ite_and]

theorem notify_token {a : Token.Action} (h : notify self w a = .ok w') : w'.token = w.token := by
  cases a with
  | create issuer maximumSupply => cases h; rfl
  | issue to_ quantity memo => cases h; rfl
  | transfer from_ to_ quantity memo =>
    simp only [notify] at h
    split at h
    · obtain ⟨proxy, -, h⟩ := Rollback.bind_eq_ok.mp h
      cases h
      rfl
    · split at h
      · obtain ⟨proxy, -, h⟩ := Rollback.bind_eq_ok.mp h
        cases h
        rfl
      · cases h
        rfl

theorem notify_from_self {to_ : AccountName} {quantity : Asset} {memo : String}
    (h : notify self w (.transfer self to_ quantity memo) = .ok w') :
    ∃ codeConfig, w.proxy.config = some codeConfig ∧ to_ = codeConfig.owner := by
  simp only [notify, if_true] at h
  obtain ⟨proxy, hproxy, -⟩ := Rollback.bind_eq_ok.mp h
  obtain ⟨codeConfig, hconfig, hto, -⟩ := applyTransfer_from_self.mp hproxy
  exact ⟨codeConfig, hconfig, hto⟩

/-- A transfer takes from the account only if it is the sender. -/
theorem paysOwner_of_transferred {t : Token.State} {from_ to_ : AccountName} {quantity : Asset}
    (htr : Token.Transferred c w.token t from_ to_ quantity) (hw : w'.token = t)
    (howner : from_ = self → ∃ codeConfig, w.proxy.config = some codeConfig ∧
      to_ = codeConfig.owner) : PaysOwner self w w' := by
  intro sym hlt
  rw [hw] at hlt ⊢
  have hself := balance_of_transferred htr self sym
  have hnonneg : 0 ≤ amount sym quantity := amount_nonneg htr.pos
  by_cases hfrom : from_ = self
  · obtain ⟨codeConfig, hconfig, rfl⟩ := howner hfrom
    have hto := balance_of_transferred htr codeConfig.owner sym
    subst hfrom
    rw [if_pos rfl, if_neg htr.ne] at hself
    rw [if_pos rfl, if_neg (Ne.symm htr.ne)] at hto
    exact ⟨codeConfig, hconfig, by omega⟩
  · rw [if_neg (Ne.symm hfrom)] at hself
    split at hself <;> omega

theorem paysOwner_of_le (h : ∀ sym, w.token.balance self sym ≤ w'.token.balance self sym) :
    PaysOwner self w w' := fun sym hlt => by
  have hle := h sym
  omega

theorem exec_paysOwner {a : Token.Action} (ht : Token.Conserved w.token)
    (h : exec self c w a = .ok w') : PaysOwner self w w' := by
  cases executed_of_exec ht h with
  | created hcreated hw =>
    subst hw
    exact paysOwner_of_le fun sym => (balance_of_created hcreated self sym).ge
  | issued hissued hw =>
    subst hw
    refine paysOwner_of_le fun sym => ?_
    have hcredit := balance_of_issued hissued self sym
    have hnonneg : 0 ≤ amount sym _ := amount_nonneg hissued.pos
    simp only
    split at hcredit <;> omega
  | @passedOn to_ quantity memo st t t' hissued ht' hw =>
    have htr := Token.transfer_transferred hissued.rows ht'
    -- The issuer has been credited with what it passes on.
    refine paysOwner_of_le fun sym => ?_
    rw [notify_token hw]
    show w.token.balance self sym ≤ t'.balance self sym
    have hself := balance_of_transferred htr self sym
    have hcredit := balance_of_issued hissued self sym
    have hnonneg : 0 ≤ amount sym quantity := amount_nonneg htr.pos
    split_ifs at hself hcredit <;> omega
  | transferred ht' hw =>
    have htr := Token.transfer_transferred ht.rows ht'
    refine paysOwner_of_transferred htr (notify_token hw) fun hfrom => ?_
    subst hfrom
    obtain ⟨codeConfig, hconfig, hto⟩ := notify_from_self hw
    exact ⟨codeConfig, hconfig, hto⟩

theorem execute_paysOwner {d : Deferred} (ht : Token.Conserved w.token) (refused : Bool) :
    PaysOwner self w (execute self c w d refused) := by
  unfold execute
  dsimp only
  split
  case h_1 w' hw =>
    obtain ⟨t, codeConfig, hpaid, hconfig, hto, rfl⟩ := pay_eq_ok hw
    have htr := Token.transfer_transferred ht.rows hpaid
    exact paysOwner_of_transferred htr rfl fun _ => ⟨codeConfig, hconfig, hto⟩
  case h_2 =>
    split
    · exact paysOwner_of_le fun sym => le_refl _
    · exact paysOwner_of_le fun sym => le_refl _

theorem step_paysOwner {e : Event} (ht : Token.Conserved w.token) (h : step self w e = .ok w') :
    PaysOwner self w w' := by
  cases e with
  | token c action => exact exec_paysOwner ht h
  | setowner c owner delay =>
    obtain ⟨proxy, -, h⟩ := Rollback.bind_eq_ok.mp h
    cases h
    exact paysOwner_of_le fun sym => le_refl _
  | execute c id refused =>
    obtain ⟨d, -, h⟩ := Rollback.bind_eq_ok.mp h
    cases h
    exact execute_paysOwner ht refused
  | expire id =>
    obtain ⟨d, -, h⟩ := Rollback.bind_eq_ok.mp h
    cases h
    exact paysOwner_of_le fun sym => le_refl _

/-! ### What can be paid -/

/-- The token contract took this transfer before, and nothing but its balance, its receiver and
the owner can keep it from taking it again. -/
structure Payable (t : Token.State) (f : Forward) : Prop where
  symbol : ∃ st, t.stat.find f.quantity.symbol.name = some st ∧ f.quantity.symbol = st.supply.symbol
  valid : f.quantity.isValid
  pos : 0 < f.quantity.units
  memo : f.memo.utf8ByteSize ≤ 256

/-- A token keeps its symbol. -/
def SymbolsStay (t t' : Token.State) : Prop :=
  ∀ sym st, t.stat.find sym = some st →
    ∃ st', t'.stat.find sym = some st' ∧ st'.supply.symbol = st.supply.symbol

theorem SymbolsStay.of_stat {t t' : Token.State} (h : t'.stat = t.stat) : SymbolsStay t t' :=
  fun _ st hst => ⟨st, h ▸ hst, rfl⟩

theorem SymbolsStay.trans {t t' t'' : Token.State} (h : SymbolsStay t t')
    (h' : SymbolsStay t' t'') : SymbolsStay t t'' := fun sym st hst => by
  obtain ⟨st', hst', hsym'⟩ := h sym st hst
  obtain ⟨st'', hst'', hsym''⟩ := h' sym st' hst'
  exact ⟨st'', hst'', hsym''.trans hsym'⟩

theorem Payable.stay {t t' : Token.State} {f : Forward} (h : Payable t f) (hs : SymbolsStay t t') :
    Payable t' f := by
  obtain ⟨st, hst, hsym⟩ := h.symbol
  obtain ⟨st', hst', hsym'⟩ := hs _ st hst
  exact ⟨⟨st', hst', hsym.trans hsym'.symm⟩, h.valid, h.pos, h.memo⟩

theorem SymbolsStay.issued {t t' : Token.State} {quantity : Asset} {st : Token.CurrencyStats}
    (h : Token.Issued c t t' quantity st) : SymbolsStay t t' := by
  intro sym st' hst'
  obtain ⟨supply, -, hsym, hstat⟩ := h.stat
  rw [hstat, OrderedTable.find_set]
  split
  case isTrue heq =>
    subst heq
    rw [h.found] at hst'
    cases hst'
    exact ⟨_, rfl, hsym⟩
  case isFalse => exact ⟨st', hst', rfl⟩

theorem SymbolsStay.created {t t' : Token.State} {issuer : AccountName} {maximumSupply : Asset}
    (h : Token.create c t issuer maximumSupply = .ok t') : SymbolsStay t t' := by
  simp only [Token.create, Rollback.bind_eq_ok, eosioAssert_eq_ok, requireAuth_eq_ok,
    exists_const, Rollback.pure_eq_ok] at h
  obtain ⟨-, -, -, -, hnone, rfl⟩ := h
  intro sym st hst
  rw [OrderedTable.find_set]
  split
  case isTrue heq =>
    subst heq
    rw [hnone] at hst
    cases hst
  case isFalse => exact ⟨st, hst, rfl⟩

theorem payable_of_transfer {t t' : Token.State} {from_ to_ owner : AccountName} {quantity : Asset}
    {memo : String} (ht : Token.Conserved t)
    (h : Token.transfer c t from_ to_ quantity memo = .ok t') :
    Payable t ⟨owner, quantity, memo⟩ := by
  obtain ⟨-, -, -, hsym, hvalid, hpos, hmemo, -⟩ :=
    (Token.transfer_succeeds_iff ht).mp ⟨t', h⟩
  exact ⟨hsym, hvalid, hpos, hmemo⟩

/-- Everything that is not paid has been a transfer. -/
def AllPayable (w : Chain) : Prop := ∀ f, f ∈ w.pending ∨ f ∈ w.dropped → Payable w.token f

theorem AllPayable.transfer {t : Token.State} {from_ to_ : AccountName} {quantity : Asset}
    {memo : String} (hp : AllPayable w) (hc : Token.Conserved w.token)
    (ht : Token.transfer c w.token from_ to_ quantity memo = .ok t)
    (hw : notify self { w with token := t } (.transfer from_ to_ quantity memo) = .ok w') :
    AllPayable w' := by
  have hstay : SymbolsStay w.token t := .of_stat (Token.transfer_transferred hc.rows ht).stat
  have hold : ∀ f, f ∈ w.pending ∨ f ∈ w.dropped → Payable t f :=
    fun f hf => (hp f hf).stay hstay
  simp only [notify] at hw
  split at hw
  case isTrue hself =>
    subst hself
    obtain ⟨proxy, hproxy, hw⟩ := Rollback.bind_eq_ok.mp hw
    obtain ⟨codeConfig, -, -, rfl⟩ := applyTransfer_from_self.mp hproxy
    cases hw
    exact hold
  case isFalse hne =>
    split at hw
    case isTrue hto =>
      subst hto
      obtain ⟨proxy, hproxy, hw⟩ := Rollback.bind_eq_ok.mp hw
      obtain ⟨codeConfig, -, hsent⟩ := applyTransfer_to_self hne hproxy
      cases hw
      intro f hf
      simp only [Chain.pending, hsent, List.map_append, List.map_singleton, List.mem_append,
        List.mem_singleton] at hf
      rcases hf with (hf | rfl) | hf
      · exact hold f (.inl hf)
      · exact (payable_of_transfer hc ht).stay hstay
      · exact hold f (.inr hf)
    case isFalse =>
      cases hw
      exact hold

theorem AllPayable.exec {a : Token.Action} (hp : AllPayable w) (hc : Token.Conserved w.token)
    (h : exec self c w a = .ok w') : AllPayable w' := by
  cases executed_of_exec hc h with
  | created ht hw => exact hw ▸ fun f hf => (hp f hf).stay (.created ht)
  | issued hissued hw => exact hw ▸ fun f hf => (hp f hf).stay (.issued hissued)
  | @passedOn to_ quantity memo st t t' hissued ht hw =>
    have hissuedPayable : AllPayable { w with token := t } :=
      fun f hf => (hp f hf).stay (.issued hissued)
    exact hissuedPayable.transfer (hissued.conserved hc) ht hw
  | transferred ht hw => exact hp.transfer hc ht hw

theorem mem_pending_of_erase {d : Deferred} {f : Forward}
    (h : f ∈ (w.proxy.sent.erase d).map Deferred.forward) : f ∈ w.pending := by
  obtain ⟨d', hd', rfl⟩ := List.mem_map.mp h
  exact List.mem_map.mpr ⟨d', List.mem_of_mem_erase hd', rfl⟩

theorem AllPayable.drop {d : Deferred} (hp : AllPayable w) (hd : d ∈ w.proxy.sent) :
    AllPayable (expire w d) := by
  intro f hf
  simp only [expire, Chain.pending, List.mem_append, List.mem_singleton] at hf
  rcases hf with hf | hf | rfl
  · exact hp f (.inl (mem_pending_of_erase hf))
  · exact hp f (.inr hf)
  · exact hp _ (.inl (List.mem_map_of_mem hd))

theorem AllPayable.execute {d : Deferred} (hp : AllPayable w) (hc : Token.Conserved w.token)
    (hd : d ∈ w.proxy.sent) (refused : Bool) : AllPayable (execute self c w d refused) := by
  unfold Proxy.execute
  dsimp only
  split
  case h_1 w' hw =>
    obtain ⟨t, codeConfig, ht, -, -, rfl⟩ := pay_eq_ok hw
    have hstay : SymbolsStay w.token t := .of_stat (Token.transfer_transferred hc.rows ht).stat
    exact fun f hf => (hp f (hf.imp_left mem_pending_of_erase)).stay hstay
  case h_2 =>
    split
    case h_1 proxy hproxy =>
      obtain ⟨id, delaySec, hsent⟩ := applyOnerror_eq_ok hproxy
      intro f hf
      simp only [Chain.pending, hsent, List.map_append, List.map_singleton, List.mem_append,
        List.mem_singleton] at hf
      rcases hf with (hf | rfl) | hf
      · exact hp f (.inl (mem_pending_of_erase hf))
      · exact hp _ (.inl (List.mem_map_of_mem hd))
      · exact hp f (.inr hf)
    case h_2 => exact hp.drop hd

theorem AllPayable.step {e : Event} (hp : AllPayable w) (hc : Token.Conserved w.token)
    (h : step self w e = .ok w') : AllPayable w' := by
  cases e with
  | token c action => exact hp.exec hc h
  | setowner c owner delay =>
    simp only [Proxy.step, applySetowner, Rollback.bind_eq_ok, requireAuth_eq_ok, exists_const,
      Rollback.pure_eq_ok] at h
    obtain ⟨proxy, ⟨-, rfl⟩, rfl⟩ := h
    exact hp
  | execute c id refused =>
    obtain ⟨d, hd, h⟩ := Rollback.bind_eq_ok.mp h
    cases h
    exact hp.execute hc (findSent_eq_ok hd) refused
  | expire id =>
    obtain ⟨d, hd, h⟩ := Rollback.bind_eq_ok.mp h
    cases h
    exact hp.drop (findSent_eq_ok hd)

/-! ### Runs -/

theorem total_nonneg {l : List Forward} (h : ∀ f ∈ l, 0 < f.quantity.units) : 0 ≤ total sym l := by
  refine List.sum_nonneg fun x hx => ?_
  obtain ⟨f, hf, rfl⟩ := List.mem_map.mp hx
  exact amount_nonneg (h f hf)

theorem le_total {l : List Forward} {f : Forward} (h : ∀ f ∈ l, 0 < f.quantity.units)
    (hf : f ∈ l) : f.quantity.units ≤ total f.quantity.symbol.name l := by
  have hperm : total f.quantity.symbol.name l = total f.quantity.symbol.name (f :: l.erase f) :=
    total_perm (List.perm_cons_erase hf)
  have hrest : 0 ≤ total f.quantity.symbol.name (l.erase f) :=
    total_nonneg fun g hg => h g (List.mem_of_mem_erase hg)
  rw [← List.singleton_append, total_append, total_singleton, amount, if_pos rfl] at hperm
  omega

/-- What is not paid is covered by the balance and what has been taken from it. -/
theorem Sound.unpaid_le (h : Sound self w) (sym : SymbolName) :
    total sym w.pending + total sym w.dropped ≤
      w.token.balance self sym + total sym w.withdrawn := by
  have hbacked := h.backed sym
  have hperm : w.received.Perm (w.paid ++ w.pending ++ w.dropped) := by
    refine List.perm_iff_count.mpr fun f => ?_
    rw [List.count_append, List.count_append]
    exact h.forwarded f
  have htotal : total sym w.received = total sym (w.paid ++ w.pending ++ w.dropped) :=
    total_perm hperm
  rw [total_append, total_append] at htotal
  omega

theorem run_sound (tokenEvents : List Token.Event) (self : AccountName) (es : List Event) :
    let start : Chain := { token := Rollback.run Token.step .init tokenEvents }
    (∀ w ∈ Rollback.trace (step self) start es, Sound self w ∧ AllPayable w) ∧
      Rollback.Along (step self) (fun w _ w' => PaysOwner self w w') start es := by
  have hconserved : Token.Conserved (Rollback.run Token.step .init tokenEvents) :=
    Rollback.run_induction (fun _ _ _ ht h => Token.exec_conserved ht h) tokenEvents
      Token.conserved_init
  refine Rollback.trace_induction (A := fun _ => True) (fun w e w' h _ hstep => ?_)
    (fun _ _ => trivial) ⟨sound_start hconserved self, fun f hf => by simp [Chain.pending] at hf⟩
  exact ⟨⟨h.1.step hstep, h.2.step h.1.token hstep⟩, step_paysOwner h.1.token hstep⟩

/-- From any state of the token contract, in every run: each transfer to the proxy is paid once,
pending or dropped, and what the proxy loses goes to the one who owns it then. -/
theorem forwarded_once (tokenEvents : List Token.Event) (self : AccountName) (es : List Event) :
    let start : Chain := { token := Rollback.run Token.step .init tokenEvents }
    (∀ w ∈ Rollback.trace (step self) start es, ∀ f,
      w.received.count f = w.paid.count f + w.pending.count f + w.dropped.count f) ∧
      Rollback.Along (step self) (fun w _ w' => PaysOwner self w w') start es := by
  obtain ⟨hsound, hpays⟩ := run_sound tokenEvents self es
  exact ⟨fun w hw => (hsound w hw).1.forwarded, hpays⟩

/-- As long as nobody else uses the authority of the proxy, a pending transaction can be executed
exactly while its receiver is the owner. -/
theorem payable_iff_owner {tokenEvents : List Token.Event} {self : AccountName} {es : List Event}
    {w : Chain}
    (hw : w ∈ Rollback.trace (step self)
      { token := Rollback.run Token.step .init tokenEvents } es)
    (hwithdrawn : w.withdrawn = []) {d : Deferred} (hd : d ∈ w.proxy.sent) (c : Ctx) :
    (∃ w', pay self c w { w.proxy with sent := w.proxy.sent.erase d } d.forward false = .ok w') ↔
      d.forward.to_ ≠ self ∧ c.isAccount d.forward.to_ ∧
        ∃ codeConfig, w.proxy.config = some codeConfig ∧ d.forward.to_ = codeConfig.owner := by
  obtain ⟨hsound, hpayable⟩ := (run_sound tokenEvents self es).1 w hw
  constructor
  · rintro ⟨w', h⟩
    obtain ⟨t, codeConfig, ht, hconfig, hto, -⟩ := pay_eq_ok h
    obtain ⟨hne, -, hacc, -⟩ := (Token.transfer_succeeds_iff hsound.token).mp ⟨t, ht⟩
    exact ⟨Ne.symm hne, hacc, codeConfig, hconfig, hto⟩
  · rintro ⟨hne, hacc, codeConfig, hconfig, hto⟩
    have hmem : d.forward ∈ w.pending := List.mem_map_of_mem hd
    obtain ⟨hsym, hvalid, hpos, hmemo⟩ := hpayable _ (.inl hmem)
    -- The balance covers what is unpaid, as none of that has been withdrawn.
    have hcovered : d.forward.quantity.units ≤
        w.token.balance self d.forward.quantity.symbol.name := by
      have hle := le_total (fun f hf => (hpayable f (.inl hf)).pos) hmem
      have hdropped : 0 ≤ total d.forward.quantity.symbol.name w.dropped :=
        total_nonneg fun f hf => (hpayable f (.inr hf)).pos
      have hunpaid := hsound.unpaid_le d.forward.quantity.symbol.name
      have hzero : total d.forward.quantity.symbol.name w.withdrawn = 0 := by
        rw [hwithdrawn]
        rfl
      omega
    obtain ⟨t, ht⟩ : ∃ t, Token.transfer { c with auth := [self] } w.token self d.forward.to_
        d.forward.quantity d.forward.memo = .ok t :=
      (Token.transfer_succeeds_iff hsound.token).mpr
        ⟨Ne.symm hne, List.mem_singleton_self self, hacc, hsym, hvalid, hpos, hmemo, hcovered⟩
    refine ⟨{ w with
      token := t
      proxy := { w.proxy with sent := w.proxy.sent.erase d }
      paid := w.paid ++ [d.forward] }, ?_⟩
    simp only [pay, Rollback.bind_eq_ok, eosioAssert_eq_ok, exists_const, Rollback.pure_eq_ok]
    exact ⟨trivial, t, ht, _, applyTransfer_from_self.mpr ⟨codeConfig, hconfig, hto, rfl⟩, rfl⟩

def crowd (auth : List AccountName) : Ctx := ⟨auth, 0, {N "alice", N "bob", N "proxy"}⟩

/-- Tokens that are all issued to alice. -/
def aliceHolds : List Token.Event :=
  [⟨crowd [Token.self], .create (N "alice") ⟨1000, coreSymbol⟩⟩,
    ⟨crowd [N "alice"], .issue (N "alice") ⟨1000, coreSymbol⟩ ""⟩]

/-- Bob makes the proxy his own, and alice transfers to it. -/
def bobOwns : List Event :=
  [.setowner (crowd [N "bob"]) (N "bob") 10,
    .token (crowd [N "alice"]) (.transfer (N "alice") (N "proxy") ⟨300, coreSymbol⟩ "rent")]

/-- What alice has transferred can be passed on, and could not if the proxy were not bob's. -/
theorem payable_iff_owner_rent :
    let start : Chain := { token := Rollback.run Token.step .init aliceHolds }
    let w := Rollback.run (step (N "proxy")) start bobOwns
    let f : Forward := ⟨N "bob", ⟨300, coreSymbol⟩, "rent"⟩
    (∃ w', pay (N "proxy") (crowd []) w { w.proxy with sent := w.proxy.sent.erase ⟨0, 10, f⟩ } f
        false = .ok w') ↔
      N "bob" ≠ N "proxy" ∧ (crowd []).isAccount (N "bob") ∧
        ∃ codeConfig, w.proxy.config = some codeConfig ∧ N "bob" = codeConfig.owner :=
  payable_iff_owner (Rollback.run_mem_trace _ bobOwns) (by decide +kernel)
    (d := ⟨0, 10, N "bob", ⟨300, coreSymbol⟩, "rent"⟩) (by decide +kernel) (crowd [])

end Xidata.Proxy
