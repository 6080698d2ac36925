import Xidata.System.Chain

/-!
The token side of a system action: the inline transfers it sends run one after
another.  They keep the conservation law, leave supplies as they are, and
change a balance by what flows in less what flows out.
-/

namespace Xidata.System

open Eosiolib

/-- What an inline transfer adds to the balance of `owner` in `sym`. -/
def flow (owner : AccountName) (sym : SymbolName) (i : Token.Inline) : ℤ :=
  match i.action with
  | .transfer from_ to_ quantity _ =>
      (if owner = from_ ∧ sym = quantity.symbol.name then -quantity.units else 0) +
        if owner = to_ ∧ sym = quantity.symbol.name then quantity.units else 0
  | _ => 0

theorem flow_inlineTransfer (owner from_ to_ : AccountName) (sym : SymbolName) (quantity : Asset)
    (memo : String) :
    flow owner sym (inlineTransfer from_ to_ quantity memo) =
      (if owner = from_ ∧ sym = quantity.symbol.name then -quantity.units else 0) +
        if owner = to_ ∧ sym = quantity.symbol.name then quantity.units else 0 := rfl

theorem execInline_transfer {c : Ctx} {t t' : Token.State} {from_ to_ : AccountName}
    {quantity : Asset} {memo : String} :
    execInline c t (inlineTransfer from_ to_ quantity memo) = .ok t' ↔
      Token.transfer { c with auth := [from_] } t from_ to_ quantity memo = .ok t' := by
  simp [execInline, inlineTransfer, Token.exec, Token.apply]

theorem execInline_conserved {c : Ctx} {t t' : Token.State} {i : Token.Inline}
    (ht : Token.Conserved t) (h : execInline c t i = .ok t') : Token.Conserved t' :=
  Token.exec_conserved ht h

theorem settle_conserved {c : Ctx} {t t' : Token.State} {sent : List Token.Inline}
    (ht : Token.Conserved t) (h : sent.foldlM (execInline c) t = .ok t') : Token.Conserved t' :=
  Rollback.foldlM_induction (fun _ _ _ _ hI hb => execInline_conserved hI hb) ht h

def IsTransfer (i : Token.Inline) : Prop :=
  ∃ from_ to_ quantity memo, i = inlineTransfer from_ to_ quantity memo

theorem isTransfer_inlineTransfer (from_ to_ : AccountName) (quantity : Asset) (memo : String) :
    IsTransfer (inlineTransfer from_ to_ quantity memo) := ⟨from_, to_, quantity, memo, rfl⟩

/-- What transfers sent by an action come to. -/
structure Settled (t t' : Token.State) (sent : List Token.Inline) : Prop where
  conserved : Token.Conserved t'
  stat : t'.stat = t.stat
  held : ∀ sym, t'.held sym = t.held sym
  balance : ∀ owner sym,
    t'.balance owner sym = t.balance owner sym + (sent.map (flow owner sym)).sum

theorem settled_of_ok {c : Ctx} {t t' : Token.State} {sent : List Token.Inline}
    (ht : Token.Conserved t) (hsent : ∀ i ∈ sent, IsTransfer i)
    (h : sent.foldlM (execInline c) t = .ok t') : Settled t t' sent := by
  induction sent generalizing t with
  | nil =>
      rw [List.foldlM_nil, Rollback.pure_eq_ok] at h
      subst h
      exact ⟨ht, rfl, fun _ => rfl, fun _ _ => (add_zero _).symm⟩
  | cons i sent ih =>
      rw [List.foldlM_cons, Rollback.bind_eq_ok] at h
      obtain ⟨m, hm, h⟩ := h
      obtain ⟨from_, to_, quantity, memo, rfl⟩ := hsent i (by simp)
      have hmoved := Token.transfer_transferred ht.rows (execInline_transfer.mp hm)
      have hrest := ih (hmoved.conserved ht) (fun i hi => hsent i (by simp [hi])) h
      refine ⟨hrest.conserved, hrest.stat.trans hmoved.stat,
        fun sym => (hrest.held sym).trans (hmoved.held sym), fun owner sym => ?_⟩
      rw [hrest.balance, hmoved.balance, List.map_cons, List.sum_cons, flow_inlineTransfer]
      omega

/-- The sender of a transfer that went through is not its receiver. -/
theorem ne_of_execInline {c : Ctx} {t t' : Token.State} {from_ to_ : AccountName}
    {quantity : Asset} {memo : String} (ht : Token.Conserved t)
    (h : execInline c t (inlineTransfer from_ to_ quantity memo) = .ok t') : from_ ≠ to_ :=
  (Token.transfer_transferred ht.rows (execInline_transfer.mp h)).ne

/-! ### Every event -/

/-- What a successful event did, by the kind of its call. -/
theorem exec_cases {env : Env} {s s' : Chain} {e : Event} (h : exec env s e = .ok s') :
    (∃ action token, e.call = .token action ∧ Token.exec (e.ctx s) s.token action = .ok token ∧
      s' = { s with token }) ∨
    (∃ creator newact accounts sys system, e.call = .newaccount creator newact ∧
      createAccount (e.ctx s) creator newact = .ok accounts ∧
      construct s.token s.system = .ok sys ∧ newaccount sys creator newact = .ok system ∧
      s' = { s with system, accounts }) ∨
    (∃ action sys r token, e.call = .system action ∧ construct s.token s.system = .ok sys ∧
      apply env (e.ctx s) s.token sys action = .ok r ∧
      r.2.foldlM (execInline (e.ctx s)) s.token = .ok token ∧
      s' = { s with token, system := r.1 }) := by
  unfold exec at h
  cases hcall : e.call with
  | token action =>
      simp only [hcall, Rollback.bind_eq_ok, Rollback.pure_eq_ok] at h
      obtain ⟨token, htoken, rfl⟩ := h
      exact .inl ⟨action, token, rfl, htoken, rfl⟩
  | newaccount creator newact =>
      simp only [hcall, Rollback.bind_eq_ok, Rollback.pure_eq_ok] at h
      obtain ⟨accounts, hacc, sys, hsys, system, hsystem, rfl⟩ := h
      exact .inr (.inl ⟨creator, newact, accounts, sys, system, rfl, hacc, hsys, hsystem, rfl⟩)
  | system action =>
      simp only [hcall, Rollback.bind_eq_ok, Rollback.pure_eq_ok] at h
      obtain ⟨sys, hsys, r, hr, token, htoken, rfl⟩ := h
      exact .inr (.inr ⟨action, sys, r, token, rfl, hsys, hr, htoken, rfl⟩)

/-- Every event keeps the law of the token contract. -/
theorem exec_tokenConserved {env : Env} {s s' : Chain} {e : Event}
    (hs : Token.Conserved s.token) (h : exec env s e = .ok s') : Token.Conserved s'.token := by
  rcases exec_cases h with ⟨action, token, -, htoken, rfl⟩ | ⟨_, _, _, _, _, -, -, -, -, rfl⟩ |
    ⟨action, sys, r, token, -, -, -, htoken, rfl⟩
  · exact Token.exec_conserved hs htoken
  · exact hs
  · exact settle_conserved hs htoken

/-- An inline transfer that is covered does not fail for want of balance. -/
theorem settle_not_overdrawn {c : Ctx} {t : Token.State} {from_ to_ : AccountName}
    {quantity : Asset} {memo : String}
    (hcov : quantity.units ≤ t.balance from_ quantity.symbol.name) :
    Rollback.Avoids (fun f => f.site? = some .subBalance)
      (execInline c t (inlineTransfer from_ to_ quantity memo)) := by
  have hexec : execInline c t (inlineTransfer from_ to_ quantity memo) =
      Token.transfer { c with auth := [from_] } t from_ to_ quantity memo := by
    simp only [execInline, inlineTransfer, Token.exec, Token.apply, map_eq_pure_bind, bind_assoc,
      pure_bind, List.foldlM_nil, bind_pure]
  rw [hexec]
  exact Token.transfer_not_overdrawn hcov

end Xidata.System
