import Xidata.History.Numbering

/-!
The tables of keys and controlling accounts against the authorities that the accounts have.
The authorities change with the actions of the system account; the tables follow them as
long as every trace that looks like such an action is one, no authority names an actor
twice, and nothing throws before.
-/

namespace Xidata.History

open Eosiolib (AccountName N)

/-- The authorities of the permissions of all accounts. -/
abbrev Authorities := OrderedTable (AccountName ×ₗ AccountName) Authority

/-- An action that the system account has received from itself. -/
def Genuine (at_ : AppliedAction) : Prop :=
  at_.receiver = systemAccountName ∧ at_.act.account = systemAccountName

instance (at_ : AppliedAction) : Decidable (Genuine at_) := inferInstanceAs (Decidable (_ ∧ _))

/-- What an action changes of the authorities, if the chain applies it: an account is only
made once. -/
def authorize (ext : Externals) (auths : Authorities) (at_ : AppliedAction) :
    Except Unit Authorities :=
  if Genuine at_ then
    if at_.act.name = N "newaccount" then
      match ext.dataAsNewAccount at_.act with
      | none => .error ()
      | some create =>
        if (auths.first fun k => (ofLex k).1 = create.name).isSome then .error ()
        else .ok ((auths.set (toLex (create.name, N "owner")) create.owner).set
          (toLex (create.name, N "active")) create.active)
    else if at_.act.name = N "updateauth" then
      match ext.dataAsUpdateAuth at_.act with
      | none => .error ()
      | some update => .ok (auths.set (toLex (update.account, update.permission)) update.auth)
    else if at_.act.name = N "deleteauth" then
      match ext.dataAsDeleteAuth at_.act with
      | none => .error ()
      | some del => .ok (auths.erase (toLex (del.account, del.permission)))
    else .ok auths
  else .ok auths

/-- The tables of the plugin, the authorities, and the actions that have been applied. -/
structure Ledger where
  tables : Tables := {}
  authorities : Authorities := .empty
  applied : List AppliedAction := []

/-- A transaction that the chain applies. -/
def Ledger.step (cfg : Config) (ext : Externals) (l : Ledger) (traces : List ActionTrace) :
    Except Unit Ledger := do
  let authorities ← (allActions traces).foldlM (authorize ext) l.authorities
  pure
    { tables := l.tables.onAppliedTransaction cfg ext traces
      authorities := authorities
      applied := l.applied ++ allActions traces }

/-- The queries answer with the accounts that have a permission with this key, or one with a
permission of this account. -/
structure Mirrors (l : Ledger) : Prop where
  keys : ∀ key a, a ∈ l.tables.getKeyAccounts key ↔
    ∃ p auth, l.authorities.find (toLex (a, p)) = some auth ∧ key ∈ auth.keys
  controls : ∀ c a, a ∈ l.tables.getControlledAccounts c ↔
    ∃ p auth, l.authorities.find (toLex (a, p)) = some auth ∧ ∃ level ∈ auth.accounts, level.actor = c

/-! ### The rows of one permission -/

/-- The tables have the rows of the authorities. -/
structure Tracks (h : Tables) (auths : Authorities) : Prop where
  keys : ∀ key a p, ⟨key, a, p⟩ ∈ h.publicKeys ↔
    ∃ auth, auths.find (toLex (a, p)) = some auth ∧ key ∈ auth.keys
  controls : ∀ a p c, ⟨a, p, c⟩ ∈ h.accountControls ↔
    ∃ auth, auths.find (toLex (a, p)) = some auth ∧ ∃ level ∈ auth.accounts, level.actor = c

/-- No actor is named twice. -/
def Authority.NoRepeat (auth : Authority) : Prop := (auth.accounts.map PermissionLevel.actor).Nodup

instance (auth : Authority) : Decidable auth.NoRepeat := inferInstanceAs (Decidable (List.Nodup _))

variable {h : Tables} {auths : Authorities} {name permission : AccountName} {auth : Authority}

theorem addKeys_eq (h : Tables) (keys : List PublicKey) (name permission : AccountName) :
    h.addKeys keys name permission =
      { h with publicKeys := h.publicKeys ++ keys.map fun key => ⟨key, name, permission⟩ } := by
  unfold Tables.addKeys
  induction keys generalizing h with
  | nil => simp
  | cons key keys ih =>
      rw [List.foldl_cons, ih]
      simp

/-- Accounts that are all different are all added to a permission that has none. -/
theorem addAccounts_eq {levels : List PermissionLevel}
    (hnew : ∀ level ∈ levels, ⟨name, permission, level.actor⟩ ∉ h.accountControls)
    (hrepeat : (levels.map PermissionLevel.actor).Nodup) :
    h.addAccounts levels name permission = .ok { h with
      accountControls := h.accountControls ++ levels.map fun level =>
        ⟨name, permission, level.actor⟩ } := by
  unfold Tables.addAccounts
  induction levels generalizing h with
  | nil => simp [pure, Except.pure]
  | cons level levels ih =>
      rw [List.map_cons, List.nodup_cons] at hrepeat
      rw [List.foldlM_cons, if_neg (hnew level List.mem_cons_self), Rollback.ok_bind, ih _ hrepeat.2]
      · simp
      · intro level' hlevel' hmem
        obtain hmem | hmem := List.mem_append.mp hmem
        · exact hnew level' (List.mem_cons_of_mem _ hlevel') hmem
        · rw [List.mem_singleton, AccountControlHistoryObject.mk.injEq] at hmem
          exact hrepeat.1 (hmem.2.2 ▸ List.mem_map_of_mem hlevel')

theorem filter_eraseP {ρ : Type} (key : ρ → Bool) (rows : List ρ) :
    (rows.eraseP key).filter (fun row => !key row) = rows.filter fun row => !key row := by
  induction rows with
  | nil => rfl
  | cons row rows ih =>
      cases hrow : key row with
      | true => rw [List.eraseP_cons_of_pos hrow, List.filter_cons_of_neg (by simp [hrow])]
      | false =>
          rw [List.eraseP_cons_of_neg (by simp [hrow]), List.filter_cons_of_pos (by simp [hrow]),
            List.filter_cons_of_pos (by simp [hrow]), ih]

theorem removeLoop_eq {ρ : Type} {key : ρ → Bool} {fuel : ℕ} {rows : List ρ}
    (hfuel : rows.length ≤ fuel) : removeLoop key fuel rows = rows.filter fun row => !key row := by
  induction fuel generalizing rows with
  | zero =>
      rw [List.length_eq_zero_iff.mp (Nat.le_zero.mp hfuel)]
      rfl
  | succ fuel ih =>
      rw [removeLoop]
      cases hfind : rows.find? key with
      | none =>
          refine (List.filter_eq_self.mpr fun row hrow => ?_).symm
          simpa using List.find?_eq_none.mp hfind row hrow
      | some row =>
          have hrow : row ∈ rows := List.mem_of_find?_eq_some hfind
          have hlen := List.length_eraseP_of_mem hrow (List.find?_some hfind)
          dsimp only
          rw [ih (by omega), filter_eraseP]

/-- All the rows with the key are removed. -/
theorem remove_eq {ρ : Type} (key : ρ → Bool) (rows : List ρ) :
    remove key rows = rows.filter fun row => !key row := removeLoop_eq le_rfl

theorem mem_remove {ρ : Type} {key : ρ → Bool} {rows : List ρ} {row : ρ} :
    row ∈ remove key rows ↔ row ∈ rows ∧ key row = false := by
  rw [remove_eq, List.mem_filter, Bool.not_eq_true']

theorem Tracks.removeAuthority (ht : Tracks h auths) (name permission : AccountName) :
    Tracks (h.removeAuthority name permission) (auths.erase (toLex (name, permission))) where
  keys key a p := by
    rw [OrderedTable.exists_find_erase, ← ht.keys]
    refine mem_remove.trans ?_
    simp [and_comm]
  controls a p c := by
    rw [OrderedTable.exists_find_erase, ← ht.controls]
    refine mem_remove.trans ?_
    simp [and_comm]

/-- The rows of an authority without repetitions are added to those of the others. -/
theorem Tracks.addAuthority (ht : Tracks h auths)
    (hnone : auths.find (toLex (name, permission)) = none) (hauth : auth.NoRepeat) :
    ∃ h', (h.addKeys auth.keys name permission).addAccounts auth.accounts name permission = .ok h' ∧
      Tracks h' (auths.set (toLex (name, permission)) auth) := by
  have hnokey : ∀ key, (⟨key, name, permission⟩ : PublicKeyHistoryObject) ∉ h.publicKeys :=
    fun key hmem => by
      obtain ⟨auth', hfound, -⟩ := (ht.keys _ _ _).mp hmem
      cases hnone.symm.trans hfound
  have hnoaccount : ∀ c, (⟨name, permission, c⟩ : AccountControlHistoryObject) ∉ h.accountControls :=
    fun c hmem => by
      obtain ⟨auth', hfound, -⟩ := (ht.controls _ _ _).mp hmem
      cases hnone.symm.trans hfound
  rw [addKeys_eq]
  refine ⟨_, addAccounts_eq (fun level _ => hnoaccount level.actor) hauth, fun key a p => ?_,
    fun a p c => ?_⟩
  · rw [OrderedTable.exists_find_set, ← ht.keys, List.mem_append]
    by_cases hk : a = name ∧ p = permission
    · rw [hk.1, hk.2]
      simp [hnokey]
    · simpa [hk] using fun _ hname hpermission => absurd ⟨hname.symm, hpermission.symm⟩ hk
  · rw [OrderedTable.exists_find_set, ← ht.controls, List.mem_append]
    by_cases hk : a = name ∧ p = permission
    · rw [hk.1, hk.2]
      simp [hnoaccount]
    · simpa [hk] using fun _ _ hname hpermission => absurd ⟨hname.symm, hpermission.symm⟩ hk

/-! ### One action -/

variable {cfg : Config} {ext : Externals} {at_ : AppliedAction} {ats done : List AppliedAction}
variable {auths' : Authorities}

variable (ext at_) in
/-- The authorities that an action of the system account sets. -/
def authoritiesSet : List Authority :=
  if at_.act.name = N "newaccount" then
    (ext.dataAsNewAccount at_.act).elim [] fun create => [create.owner, create.active]
  else if at_.act.name = N "updateauth" then
    (ext.dataAsUpdateAuth at_.act).elim [] fun update => [update.auth]
  else []

variable (ext at_) in
/-- An action at the system account with the name of an action that changes authorities is
one of the system account, and no authority that it sets names an actor twice. -/
def Followable : Prop :=
  at_.receiver = systemAccountName →
    at_.act.name ∈ [N "newaccount", N "updateauth", N "deleteauth"] →
      at_.act.account = systemAccountName ∧ ∀ auth ∈ authoritiesSet ext at_, auth.NoRepeat

instance : Decidable (Followable ext at_) := inferInstanceAs (Decidable (_ → _ → _ ∧ _))

theorem authorize_of_not (hat : ¬ (at_.receiver = systemAccountName ∧
    at_.act.name ∈ [N "newaccount", N "updateauth", N "deleteauth"])) :
    authorize ext auths at_ = .ok auths := by
  unfold authorize
  split
  · next hgenuine =>
      have hname : at_.act.name ∉ [N "newaccount", N "updateauth", N "deleteauth"] :=
        fun hname => hat ⟨hgenuine.1, hname⟩
      simp only [List.mem_cons, List.not_mem_nil, or_false, not_or] at hname
      rw [if_neg hname.1, if_neg hname.2.1, if_neg hname.2.2]
  · rfl

theorem onSystemAction_of_not (h : Tables)
    (hname : at_.act.name ∉ [N "newaccount", N "updateauth", N "deleteauth"]) :
    h.onSystemAction ext at_ = .ok h := by
  simp only [List.mem_cons, List.not_mem_nil, or_false, not_or] at hname
  rw [Tables.onSystemAction, if_neg hname.1, if_neg hname.2.1, if_neg hname.2.2]

theorem set_erase (auths : Authorities) (k : AccountName ×ₗ AccountName) (auth : Authority) :
    (auths.erase k).set k auth = auths.set k auth := by
  refine OrderedTable.eq_of_find fun k' => ?_
  rw [OrderedTable.find_set, OrderedTable.find_set, OrderedTable.find_erase]
  split <;> rfl

/-- An account that has no authorities gets its owner and its active one. -/
theorem Tracks.newAccount (ht : Tracks h auths) {create : NewAccount}
    (hfirst : ¬ (auths.first fun k => (ofLex k).1 = create.name).isSome = true)
    (howner : create.owner.NoRepeat) (hactive : create.active.NoRepeat) :
    ∃ h₁ h', (h.addKeys create.owner.keys create.name (N "owner")).addAccounts
          create.owner.accounts create.name (N "owner") = .ok h₁ ∧
        (h₁.addKeys create.active.keys create.name (N "active")).addAccounts
          create.active.accounts create.name (N "active") = .ok h' ∧
        Tracks h' ((auths.set (toLex (create.name, N "owner")) create.owner).set
          (toLex (create.name, N "active")) create.active) := by
  have hnone : ∀ p, auths.find (toLex (create.name, p)) = none := by
    intro p
    rw [Option.eq_none_iff_forall_ne_some]
    intro auth hfound
    refine hfirst (List.find?_isSome.mpr ⟨_, OrderedTable.find_eq_some.mp hfound, ?_⟩)
    exact decide_eq_true rfl
  obtain ⟨h₁, hok₁, ht₁⟩ := ht.addAuthority (hnone (N "owner")) howner
  have hfree : (auths.set (toLex (create.name, N "owner")) create.owner).find
      (toLex (create.name, N "active")) = none := by
    rw [OrderedTable.find_set_of_ne _ (by simp; decide), hnone]
  obtain ⟨h₂, hok₂, ht₂⟩ := ht₁.addAuthority hfree hactive
  exact ⟨h₁, h₂, hok₁, hok₂, ht₂⟩

/-- The plugin makes the changes that the chain makes. -/
theorem Tracks.onSystemAction (ht : Tracks h auths) (hgenuine : Genuine at_)
    (hauth : ∀ auth ∈ authoritiesSet ext at_, auth.NoRepeat)
    (hok : authorize ext auths at_ = .ok auths') :
    ∃ h', h.onSystemAction ext at_ = .ok h' ∧ Tracks h' auths' := by
  rw [authorize, if_pos hgenuine] at hok
  unfold authoritiesSet at hauth
  unfold Tables.onSystemAction
  by_cases hnew : at_.act.name = N "newaccount"
  · rw [if_pos hnew] at hok hauth ⊢
    cases hdata : ext.dataAsNewAccount at_.act with
    | none =>
        rw [hdata] at hok
        cases hok
    | some create =>
        rw [hdata] at hok hauth
        dsimp only at hok ⊢
        split at hok
        · cases hok
        · next hfirst =>
            obtain ⟨h₁, h', hok₁, hok₂, ht'⟩ := ht.newAccount hfirst (hauth create.owner (by simp))
              (hauth create.active (by simp))
            refine ⟨h', ?_, Except.ok.inj hok ▸ ht'⟩
            rw [hok₁, Rollback.ok_bind, hok₂]
  · rw [if_neg hnew] at hok hauth ⊢
    by_cases hupdate : at_.act.name = N "updateauth"
    · rw [if_pos hupdate] at hok hauth ⊢
      cases hdata : ext.dataAsUpdateAuth at_.act with
      | none =>
          rw [hdata] at hok
          cases hok
      | some update =>
          rw [hdata] at hok hauth
          obtain ⟨h', hok', ht'⟩ := (ht.removeAuthority update.account update.permission).addAuthority
            (OrderedTable.find_erase_self _ _) (hauth update.auth (by simp))
          rw [set_erase, Except.ok.inj hok] at ht'
          exact ⟨h', hok', ht'⟩
    · rw [if_neg hupdate] at hok ⊢
      by_cases hdelete : at_.act.name = N "deleteauth"
      · rw [if_pos hdelete] at hok ⊢
        cases hdata : ext.dataAsDeleteAuth at_.act with
        | none =>
            rw [hdata] at hok
            cases hok
        | some del =>
            rw [hdata] at hok
            exact ⟨_, rfl, Except.ok.inj hok ▸ ht.removeAuthority del.account del.permission⟩
      · rw [if_neg hdelete] at hok ⊢
        exact ⟨h, rfl, Except.ok.inj hok ▸ ht⟩

/-- An action whose rows get the right numbers throws nothing. -/
theorem Tracks.onAction (ht : Tracks h auths)
    (hnumbered : NumberedBy cfg done { recorded := h.recorded })
    (hseq : ∀ b ∈ done, b.globalSequence < at_.globalSequence)
    (hnumbers : NumbersAt cfg ext done at_) (hfollow : Followable ext at_)
    (hok : authorize ext auths at_ = .ok auths') :
    ∃ h', h.onAction cfg ext at_ = .ok h' ∧ Tracks h' auths' ∧
      NumberedBy cfg (done ++ [at_]) { recorded := h'.recorded } := by
  have hafter := (hnumbered.apply_iff hseq).mpr hnumbers
  suffices hact : ∃ h', h.onAction cfg ext at_ = .ok h' ∧ Tracks h' auths' by
    obtain ⟨h', hact, ht'⟩ := hact
    exact ⟨h', hact, ht', apply_of_onAction hact ▸ hafter⟩
  cases hrecord : recordAction cfg ext h.recorded at_ with
  | error e =>
      have hfailed := hafter.failed
      rw [apply, hrecord] at hfailed
      cases hfailed
  | ok r =>
      have htracks : Tracks { h with recorded := r } auths := ⟨ht.keys, ht.controls⟩
      unfold Tables.onAction
      rw [hrecord]
      dsimp only
      by_cases hreceiver : at_.receiver = systemAccountName
      · rw [if_pos hreceiver]
        by_cases hname : at_.act.name ∈ [N "newaccount", N "updateauth", N "deleteauth"]
        · obtain ⟨haccount, hauth⟩ := hfollow hreceiver hname
          exact htracks.onSystemAction ⟨hreceiver, haccount⟩ hauth hok
        · rw [authorize_of_not fun hat => hname hat.2] at hok
          exact ⟨_, onSystemAction_of_not _ hname, Except.ok.inj hok ▸ htracks⟩
      · rw [if_neg hreceiver]
        rw [authorize_of_not fun hat => hreceiver hat.1] at hok
        exact ⟨_, rfl, Except.ok.inj hok ▸ htracks⟩

/-! ### Transactions -/

variable (cfg ext) in
/-- The global sequence numbers increase, each action gets the right numbers in the rows of
its accounts, and what changes authorities can be followed. -/
structure Followed (l : Ledger) (traces : List ActionTrace) : Prop where
  sequence : ((l.applied ++ allActions traces).map AppliedAction.globalSequence).Pairwise (· < ·)
  numbers : ∀ pre at_, pre ++ [at_] <+: allActions traces → NumbersAt cfg ext (l.applied ++ pre) at_
  actions : ∀ at_ ∈ allActions traces, Followable ext at_

variable (cfg) in
/-- The tables have the rows of the authorities and those of the actions. -/
structure InStep (l : Ledger) : Prop where
  tracks : Tracks l.tables l.authorities
  numbered : NumberedBy cfg l.applied { recorded := l.tables.recorded }

theorem onActions_ok (ht : Tracks h auths) (hnumbered : NumberedBy cfg done { recorded := h.recorded })
    (hseq : ((done ++ ats).map AppliedAction.globalSequence).Pairwise (· < ·))
    (hnumbers : ∀ pre at_, pre ++ [at_] <+: ats → NumbersAt cfg ext (done ++ pre) at_)
    (hfollow : ∀ at_ ∈ ats, Followable ext at_) (hok : ats.foldlM (authorize ext) auths = .ok auths') :
    ∃ h', ats.foldlM (Tables.onAction cfg ext) h = .ok h' ∧ Tracks h' auths' ∧
      NumberedBy cfg (done ++ ats) { recorded := h'.recorded } := by
  induction ats generalizing h auths done with
  | nil =>
      rw [List.append_nil]
      exact ⟨h, rfl, Except.ok.inj hok ▸ ht, hnumbered⟩
  | cons at_ ats ih =>
      rw [List.foldlM_cons, Rollback.bind_eq_ok] at hok
      obtain ⟨auths₁, hok₁, hok⟩ := hok
      have hbefore : ∀ b ∈ done, b.globalSequence < at_.globalSequence :=
        globalSequence_lt hseq (by simp)
      have hnumbers₁ := hnumbers [] at_ (by simp)
      rw [List.append_nil] at hnumbers₁
      obtain ⟨h₁, hact, ht₁, hnumbered₁⟩ := ht.onAction hnumbered hbefore hnumbers₁
        (hfollow at_ List.mem_cons_self) hok₁
      have hsplit : done ++ at_ :: ats = done ++ [at_] ++ ats := by simp
      rw [List.foldlM_cons, hact, Rollback.ok_bind, hsplit]
      refine ih ht₁ hnumbered₁ (hsplit ▸ hseq) (fun pre b hpre => ?_)
        (fun b hb => hfollow b (List.mem_cons_of_mem _ hb)) hok
      rw [List.append_assoc]
      exact hnumbers (at_ :: pre) b (List.cons_prefix_cons.mpr ⟨rfl, hpre⟩)

theorem InStep.step {l l' : Ledger} {traces : List ActionTrace} (hl : InStep cfg l)
    (hfollowed : Followed cfg ext l traces) (hok : l.step cfg ext traces = .ok l') :
    InStep cfg l' := by
  obtain ⟨auths', hauths, hl'⟩ := Rollback.bind_eq_ok.mp hok
  cases hl'
  obtain ⟨h', hacts, ht', hnumbered'⟩ := onActions_ok hl.tracks hl.numbered hfollowed.sequence
    hfollowed.numbers hfollowed.actions hauths
  have htables : l.tables.onAppliedTransaction cfg ext traces = h' := by
    rw [Tables.onAppliedTransaction, Tables.onActionTraces_eq, hacts]
    rfl
  exact ⟨htables ▸ ht', htables ▸ hnumbered'⟩

theorem inStep_empty : InStep cfg {} where
  tracks :=
    { keys _ _ _ := ⟨fun hmem => (nomatch hmem), fun ⟨_, hfound, _⟩ => (nomatch hfound)⟩
      controls _ _ _ := ⟨fun hmem => (nomatch hmem), fun ⟨_, hfound, _⟩ => (nomatch hfound)⟩ }
  numbered := numberedBy_nil

/-! ### The queries -/

theorem mem_keys_foldl {ρ : Type} {name : ρ → AccountName} {rows : List ρ} {a : AccountName}
    (t : OrderedTable AccountName Unit) :
    a ∈ (rows.foldl (fun accounts row => accounts.set (name row) ()) t).keys ↔
      a ∈ t.keys ∨ ∃ row ∈ rows, name row = a := by
  induction rows generalizing t with
  | nil => simp
  | cons row rows ih =>
      have hset : a ∈ (t.set (name row) ()).keys ↔ name row = a ∨ a ∈ t.keys := by
        rw [OrderedTable.mem_keys, OrderedTable.mem_keys, OrderedTable.find_set]
        by_cases ha : a = name row
        · simp [ha]
        · simp [ha, Ne.symm ha]
      rw [List.foldl_cons, ih, hset, List.exists_mem_cons_iff]
      tauto

theorem InStep.mirrors {l : Ledger} (hl : InStep cfg l) : Mirrors l where
  keys key a := by
    rw [Tables.getKeyAccounts, mem_keys_foldl]
    constructor
    · rintro (hmem | ⟨⟨key', a', p⟩, hmem, rfl⟩)
      · cases hmem
      · obtain ⟨hrow, hkey⟩ := List.mem_filter.mp hmem
        obtain rfl : key' = key := of_decide_eq_true hkey
        exact ⟨p, (hl.tracks.keys _ _ _).mp hrow⟩
    · rintro ⟨p, hauth⟩
      exact .inr ⟨⟨key, a, p⟩, List.mem_filter.mpr ⟨(hl.tracks.keys _ _ _).mpr hauth, by simp⟩, rfl⟩
  controls c a := by
    rw [Tables.getControlledAccounts, mem_keys_foldl]
    constructor
    · rintro (hmem | ⟨⟨a', p, c'⟩, hmem, rfl⟩)
      · cases hmem
      · obtain ⟨hrow, hc⟩ := List.mem_filter.mp hmem
        obtain rfl : c' = c := of_decide_eq_true hc
        exact ⟨p, (hl.tracks.controls _ _ _).mp hrow⟩
    · rintro ⟨p, hauth⟩
      exact .inr ⟨⟨a, p, c⟩, List.mem_filter.mpr ⟨(hl.tracks.controls _ _ _).mpr hauth, by simp⟩,
        rfl⟩

/-- In a run from the empty chain whose transactions can all be followed, the queries always
answer with the authorities of the accounts. -/
theorem mirrors_of_followed (cfg : Config) (ext : Externals) {txs : List (List ActionTrace)}
    (hfollowed : Rollback.Along (Ledger.step cfg ext) (fun l traces _ => Followed cfg ext l traces)
      {} txs) : ∀ l ∈ Rollback.trace (Ledger.step cfg ext) {} txs, Mirrors l := by
  intro l hl
  have hinStep : InStep cfg l := Rollback.trace_induction_along
    (fun l traces l' hl hok hfollowed => hl.step hfollowed hok) hfollowed inStep_empty l hl
  exact hinStep.mirrors

/-! ### Some transactions -/

/-- The data of an action that makes an account is read as this. -/
def readAs (create : NewAccount) : Externals where
  dataAsNewAccount _ := some create
  dataAsUpdateAuth _ := none
  dataAsDeleteAuth _ := none

/-- The transaction of an action that makes an account. -/
def newAccountTrace : List ActionTrace :=
  [.node
    { receiver := systemAccountName
      globalSequence := 1
      act := { account := systemAccountName, name := N "newaccount" } } []]

/-- The key 1 is the owner, the key 2 is active, and so is what `actor` permits. -/
def keyed (actor : AccountName) : NewAccount where
  name := N "alice"
  owner := { keys := [[1]] }
  active := { keys := [[2]], accounts := [⟨actor, N "active"⟩] }

/-- An account whose owner is either of two permissions of the same account. -/
def owned (actor : AccountName) : NewAccount where
  name := N "alice"
  owner := { accounts := [⟨actor, N "active"⟩, ⟨actor, N "owner"⟩] }
  active := { keys := [[2]] }

theorem mirrors_keyed : Mirrors
    (Rollback.push (Ledger.step {} (readAs (keyed (N "bob")))) {} newAccountTrace) := by
  have hfollowed : Rollback.Along (Ledger.step {} (readAs (keyed (N "bob"))))
      (fun l traces _ => Followed {} (readAs (keyed (N "bob"))) l traces) {} [newAccountTrace] := by
    refine ⟨fun l' _ => ⟨by decide, fun pre at_ _ hfilter => ?_, by decide⟩, trivial⟩
    have hnone : Config.filter {} at_ = false := by simp [Config.filter]
    exact absurd hfilter (by simp [hnone])
  exact mirrors_of_followed _ _ hfollowed _ (List.mem_cons_of_mem _ List.mem_cons_self)

/-- The second permission of an account in the authority of the owner throws, and the active
key is never listed. -/
theorem mirrors_fails : ¬ ∀ l ∈ Rollback.trace (Ledger.step {} (readAs (owned (N "bob")))) {}
    [newAccountTrace], Mirrors l := by
  intro hmirrors
  have hlast := hmirrors _ (List.mem_cons_of_mem _ List.mem_cons_self)
  have hactive : (Rollback.push (Ledger.step {} (readAs (owned (N "bob")))) {}
      newAccountTrace).authorities.find (toLex (N "alice", N "active")) = some { keys := [[2]] } := by
    decide +kernel
  have hlisted := (hlast.keys [2] (N "alice")).mpr ⟨N "active", _, hactive, List.mem_singleton.mpr rfl⟩
  exact absurd hlisted (by decide +kernel)

end Xidata.History
