import Mathlib.Algebra.BigOperators.Group.List.Basic
import Xidata.Proxy.Contract
import Xidata.Token.Conservation

/-!
What becomes of the tokens that a proxy receives.  Each transfer to it is paid once, pending or
dropped; nothing leaves it except to the one who owns it then; and what is pending is backed by
its balance, as long as nobody else uses its authority.
-/

namespace Xidata.Proxy

open Eosiolib

variable {self : AccountName} {c : Ctx} {s s' : State} {w w' : Chain} {sym : SymbolName}

/-! ### The contract -/

theorem sendNext_eq_ok {codeConfig : Config} {f : Forward} :
    sendNext s codeConfig f = .ok s' ↔
      (∀ d ∈ s.sent, d.id ≠ codeConfig.nextId) ∧
        s' = ⟨some { codeConfig with nextId := codeConfig.nextId + 1 },
          s.sent ++ [⟨codeConfig.nextId, codeConfig.delay, f⟩]⟩ := by
  simp only [sendNext, send, Rollback.bind_eq_ok, eosioAssert_eq_ok, exists_const,
    Rollback.pure_eq_ok]
  exact and_congr_right fun _ => eq_comm

theorem applyTransfer_from_self {to_ : AccountName} {quantity : Asset} {memo : String} :
    applyTransfer self s self to_ quantity memo = .ok s' ↔
      ∃ codeConfig, s.config = some codeConfig ∧ to_ = codeConfig.owner ∧ s' = s := by
  simp only [applyTransfer, Rollback.bind_eq_ok, getRow_eq_ok, if_true, eosioAssert_eq_ok,
    exists_const, Rollback.pure_eq_ok]
  exact exists_congr fun _ => and_congr_right fun _ => and_congr_right fun _ => eq_comm

theorem applyTransfer_to_self {from_ : AccountName} {quantity : Asset} {memo : String}
    (hne : from_ ≠ self) (h : applyTransfer self s from_ self quantity memo = .ok s') :
    ∃ codeConfig, s.config = some codeConfig ∧
      s'.sent = s.sent ++
        [⟨codeConfig.nextId, codeConfig.delay, ⟨codeConfig.owner, quantity, memo⟩⟩] := by
  simp only [applyTransfer, Rollback.bind_eq_ok, getRow_eq_ok, if_neg hne, eosioAssert_eq_ok,
    exists_const, true_and] at h
  obtain ⟨codeConfig, hconfig, h⟩ := h
  exact ⟨codeConfig, hconfig, by rw [(sendNext_eq_ok.mp h).2]⟩

theorem applyOnerror_eq_ok {f : Forward} (h : applyOnerror s f = .ok s') :
    ∃ id delaySec, s'.sent = s.sent ++ [⟨id, delaySec, f⟩] := by
  simp only [applyOnerror, Rollback.bind_eq_ok, getRow_eq_ok] at h
  obtain ⟨codeConfig, -, h⟩ := h
  exact ⟨_, _, by rw [(sendNext_eq_ok.mp h).2]⟩

/-! ### The account of the forwards -/

/-- What a quantity adds to the tokens of a symbol. -/
def amount (sym : SymbolName) (quantity : Asset) : ℤ :=
  if quantity.symbol.name = sym then quantity.units else 0

/-- What the transfers of a symbol come to. -/
def total (sym : SymbolName) (l : List Forward) : ℤ := (l.map fun f => amount sym f.quantity).sum

@[simp] theorem total_append (l l' : List Forward) :
    total sym (l ++ l') = total sym l + total sym l' := by
  simp [total]

@[simp] theorem total_singleton (f : Forward) : total sym [f] = amount sym f.quantity := by
  simp [total]

theorem total_perm {l l' : List Forward} (h : l.Perm l') : total sym l = total sym l' :=
  (h.map _).sum_eq

theorem balance_of_transferred {t t' : Token.State} {from_ to_ : AccountName} {quantity : Asset}
    (h : Token.Transferred c t t' from_ to_ quantity) (a : AccountName) (sym : SymbolName) :
    t'.balance a sym = t.balance a sym - (if a = from_ then amount sym quantity else 0) +
      (if a = to_ then amount sym quantity else 0) := by
  rw [h.balance]
  unfold amount
  have hswap : (sym = quantity.symbol.name) = (quantity.symbol.name = sym) := propext eq_comm
  simp only [hswap, ite_and]
  split_ifs <;> omega

def Chain.pending (w : Chain) : List Forward := w.proxy.sent.map Deferred.forward

/-- Every transfer to the proxy is accounted for, and its balance covers what it has not paid. -/
structure Sound (account : AccountName) (w : Chain) : Prop where
  token : Token.Conserved w.token
  forwarded : ∀ f, w.received.count f = w.paid.count f + w.pending.count f + w.dropped.count f
  backed : ∀ sym, total sym w.received ≤
    w.token.balance account sym + total sym w.paid + total sym w.withdrawn

/-- A transfer with all that are told of it. -/
theorem Sound.transfer {t : Token.State} {from_ to_ : AccountName} {quantity : Asset}
    {memo : String} (h : Sound self w)
    (ht : Token.transfer c w.token from_ to_ quantity memo = .ok t)
    (hw : notify self { w with token := t } (.transfer from_ to_ quantity memo) = .ok w') :
    Sound self w' := by
  have htr := Token.transfer_transferred h.token.rows ht
  have hconserved := htr.conserved h.token
  simp only [notify] at hw
  split at hw
  case isTrue hself =>
    subst hself
    obtain ⟨proxy, hproxy, hw⟩ := Rollback.bind_eq_ok.mp hw
    obtain ⟨codeConfig, -, -, rfl⟩ := applyTransfer_from_self.mp hproxy
    cases hw
    refine ⟨hconserved, h.forwarded, fun sym => ?_⟩
    have hbacked := h.backed sym
    have hbalance := balance_of_transferred htr from_ sym
    rw [if_pos rfl, if_neg htr.ne] at hbalance
    simp only [total_append, total_singleton]
    omega
  case isFalse hne =>
    split at hw
    case isTrue hto =>
      subst hto
      obtain ⟨proxy, hproxy, hw⟩ := Rollback.bind_eq_ok.mp hw
      obtain ⟨codeConfig, hconfig, hsent⟩ := applyTransfer_to_self hne hproxy
      cases hw
      refine ⟨hconserved, fun f => ?_, fun sym => ?_⟩
      · have hforwarded := h.forwarded f
        rw [Chain.pending] at hforwarded ⊢
        simp only [hsent, hconfig, Option.getD_some, List.map_append, List.map_singleton,
          List.count_append]
        omega
      · have hbacked := h.backed sym
        have hbalance := balance_of_transferred htr to_ sym
        rw [if_pos rfl, if_neg (Ne.symm hne)] at hbalance
        simp only [total_append, total_singleton]
        omega
    case isFalse hto =>
      cases hw
      refine ⟨hconserved, h.forwarded, fun sym => ?_⟩
      have hbacked := h.backed sym
      have hbalance := balance_of_transferred htr self sym
      rw [if_neg (Ne.symm hne), if_neg (Ne.symm hto)] at hbalance
      simp only
      omega

theorem Sound.issued {t : Token.State} {quantity : Asset} {st : Token.CurrencyStats}
    (h : Sound self w) (ht : Token.Issued c w.token t quantity st) :
    Sound self { w with token := t } := by
  refine ⟨ht.conserved h.token, h.forwarded, fun sym => ?_⟩
  have hbacked := h.backed sym
  have hbalance := ht.balance self sym
  have hpos := ht.pos
  simp only
  split_ifs at hbalance <;> omega

/-! ### Actions of the token contract -/

/-- What an action of the token contract does: the proxy is told of a transfer only, and only what
is issued to somebody else is followed by one. -/
inductive Executed (self : AccountName) (c : Ctx) (w w' : Chain) : Prop
  | created {issuer : AccountName} {maximumSupply : Asset} {t : Token.State}
      (h : Token.create c w.token issuer maximumSupply = .ok t) (hw : w' = { w with token := t })
  | issued {quantity : Asset} {st : Token.CurrencyStats} {t : Token.State}
      (h : Token.Issued c w.token t quantity st) (hw : w' = { w with token := t })
  | passedOn {to_ : AccountName} {quantity : Asset} {memo : String} {st : Token.CurrencyStats}
      {t t' : Token.State} (h : Token.Issued c w.token t quantity st)
      (ht : Token.transfer { c with auth := [st.issuer] } t st.issuer to_ quantity memo = .ok t')
      (hw : notify self { w with token := t' } (.transfer st.issuer to_ quantity memo) = .ok w')
  | transferred {from_ to_ : AccountName} {quantity : Asset} {memo : String} {t : Token.State}
      (h : Token.transfer c w.token from_ to_ quantity memo = .ok t)
      (hw : notify self { w with token := t } (.transfer from_ to_ quantity memo) = .ok w')

theorem executed_of_exec {a : Token.Action} (hc : Token.Conserved w.token)
    (h : exec self c w a = .ok w') : Executed self c w w' := by
  simp only [Proxy.exec, Rollback.bind_eq_ok] at h
  obtain ⟨r, hr, m, hm, h⟩ := h
  cases a with
  | create issuer maximumSupply =>
    simp only [Token.apply, Rollback.map_eq_ok] at hr
    obtain ⟨t, ht, rfl⟩ := hr
    cases hm
    rw [List.foldlM_nil, Rollback.pure_eq_ok] at h
    exact .created ht h.symm
  | issue to_ quantity memo =>
    obtain ⟨st, hissued, -, hsent⟩ := Token.issue_issued hc hr
    cases hm
    rw [hsent] at h
    split at h
    · rw [Rollback.foldlM_singleton_eq_ok] at h
      obtain ⟨t, ht, h⟩ := Rollback.bind_eq_ok.mp h
      exact .passedOn hissued (Token.applyInline_transfer.mp ht) h
    · rw [List.foldlM_nil, Rollback.pure_eq_ok] at h
      exact .issued hissued h.symm
  | transfer from_ to_ quantity memo =>
    simp only [Token.apply, Rollback.map_eq_ok] at hr
    obtain ⟨t, ht, rfl⟩ := hr
    rw [List.foldlM_nil, Rollback.pure_eq_ok] at h
    subst h
    exact .transferred ht hm

theorem balance_of_created {t t' : Token.State} {issuer : AccountName} {maximumSupply : Asset}
    (h : Token.create c t issuer maximumSupply = .ok t') (a : AccountName) (sym : SymbolName) :
    t'.balance a sym = t.balance a sym := by
  simp only [Token.create, Rollback.bind_eq_ok, eosioAssert_eq_ok, requireAuth_eq_ok,
    exists_const, Rollback.pure_eq_ok] at h
  obtain ⟨-, -, -, -, -, rfl⟩ := h
  rfl

theorem Sound.exec {a : Token.Action} (h : Sound self w) (hw : exec self c w a = .ok w') :
    Sound self w' := by
  cases executed_of_exec h.token hw with
  | created ht hw =>
    subst hw
    refine ⟨Token.create_conserved h.token ht, h.forwarded, fun sym => ?_⟩
    simpa only [balance_of_created ht self sym] using h.backed sym
  | issued hissued hw => exact hw ▸ h.issued hissued
  | passedOn hissued ht hw => exact (h.issued hissued).transfer ht hw
  | transferred ht hw => exact h.transfer ht hw

/-! ### Deferred transactions -/

theorem findSent_eq_ok {id : UInt32} {d : Deferred} (h : findSent w id = .ok d) :
    d ∈ w.proxy.sent :=
  List.mem_of_find?_eq_some (getRow_eq_ok.mp h)

/-- A transaction that is taken out is one less of its forward. -/
theorem count_pending {d : Deferred} (h : d ∈ w.proxy.sent) (f : Forward) :
    w.pending.count f =
      ((w.proxy.sent.erase d).map Deferred.forward).count f + [d.forward].count f := by
  have hperm : w.pending.Perm (d.forward :: (w.proxy.sent.erase d).map Deferred.forward) :=
    (List.perm_cons_erase h).map Deferred.forward
  rw [hperm.count_eq, ← List.singleton_append, List.count_append]
  omega

theorem pay_eq_ok {rest : State} {f : Forward} {refused : Bool}
    (h : pay self c w rest f refused = .ok w') :
    ∃ t codeConfig, Token.transfer { c with auth := [self] } w.token self f.to_ f.quantity f.memo =
        .ok t ∧ rest.config = some codeConfig ∧ f.to_ = codeConfig.owner ∧
      w' = { w with token := t, proxy := rest, paid := w.paid ++ [f] } := by
  simp only [pay, Rollback.bind_eq_ok, eosioAssert_eq_ok, exists_const, Rollback.pure_eq_ok] at h
  obtain ⟨-, t, ht, proxy, hproxy, rfl⟩ := h
  obtain ⟨codeConfig, hconfig, howner, rfl⟩ := applyTransfer_from_self.mp hproxy
  exact ⟨t, codeConfig, ht, hconfig, howner, rfl⟩

theorem Sound.execute {d : Deferred} (h : Sound self w) (hd : d ∈ w.proxy.sent) (refused : Bool) :
    Sound self (execute self c w d refused) := by
  unfold Proxy.execute
  dsimp only
  split
  case h_1 w' hw =>
    obtain ⟨t, codeConfig, ht, -, -, rfl⟩ := pay_eq_ok hw
    have htr := Token.transfer_transferred h.token.rows ht
    refine ⟨htr.conserved h.token, fun f => ?_, fun sym => ?_⟩
    · have hforwarded := h.forwarded f
      have hcount := count_pending hd f
      simp only [Chain.pending, List.count_append] at hforwarded hcount ⊢
      omega
    · have hbacked := h.backed sym
      have hbalance := balance_of_transferred htr self sym
      rw [if_pos rfl, if_neg htr.ne] at hbalance
      simp only [total_append, total_singleton]
      omega
  case h_2 =>
    split
    case h_1 proxy hproxy =>
      obtain ⟨id, delaySec, hsent⟩ := applyOnerror_eq_ok hproxy
      refine ⟨h.token, fun f => ?_, h.backed⟩
      have hforwarded := h.forwarded f
      have hcount := count_pending hd f
      simp only [Chain.pending, hsent, List.map_append, List.map_singleton, List.count_append] at *
      omega
    case h_2 =>
      refine ⟨h.token, fun f => ?_, h.backed⟩
      have hforwarded := h.forwarded f
      have hcount := count_pending hd f
      simp only [Chain.pending, List.count_append] at hforwarded hcount ⊢
      omega

theorem Sound.expire {d : Deferred} (h : Sound self w) (hd : d ∈ w.proxy.sent) :
    Sound self (expire w d) := by
  refine ⟨h.token, fun f => ?_, h.backed⟩
  have hforwarded := h.forwarded f
  have hcount := count_pending hd f
  simp only [Proxy.expire, Chain.pending, List.count_append] at hforwarded hcount ⊢
  omega

/-! ### Runs -/

theorem Sound.step {e : Event} (h : Sound self w) (hw : step self w e = .ok w') :
    Sound self w' := by
  cases e with
  | token c action => exact h.exec hw
  | setowner c owner delay =>
    simp only [Proxy.step, applySetowner, Rollback.bind_eq_ok, requireAuth_eq_ok, exists_const,
      Rollback.pure_eq_ok] at hw
    obtain ⟨proxy, ⟨-, rfl⟩, rfl⟩ := hw
    exact ⟨h.token, h.forwarded, h.backed⟩
  | execute c id refused =>
    obtain ⟨d, hd, hw⟩ := Rollback.bind_eq_ok.mp hw
    cases hw
    exact h.execute (findSent_eq_ok hd) refused
  | expire id =>
    obtain ⟨d, hd, hw⟩ := Rollback.bind_eq_ok.mp hw
    cases hw
    exact h.expire (findSent_eq_ok hd)

theorem sound_start {t : Token.State} (ht : Token.Conserved t) (self : AccountName) :
    Sound self { token := t } :=
  ⟨ht, fun _ => rfl, fun sym => by simpa [total] using Token.balance_nonneg ht.rows self sym⟩

end Xidata.Proxy
