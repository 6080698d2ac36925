import Xidata.Appcode.Record

/-!
The tables of the app's contracts over runs.  One action either leaves a table
alone or records its own arguments in it, so that after a run every table is
the log of the actions that it is for.
-/

namespace Xidata.Appcode

open Eosiolib Rollback

/-- The arguments of an action of a contract, when the call is one. -/
def Call.args {A : Type} (c : Call) (contract action : AccountName) (s : Serial A) : Option A :=
  if c.receiver = contract ∧ c.code = contract ∧ c.action = action then (s.unpack c.data).toOption
  else none

/-- The arguments of all calls of one action, in their order. -/
def recorded {A : Type} (cs : List Call) (contract action : AccountName) (s : Serial A) : List A :=
  cs.filterMap fun c => c.args contract action s

/-! ### One call -/

/-- What a call does to one table: it records its arguments, if it is for it. -/
def Effect {T A : Type} (d : Schema NoIndex T) (row : A → UInt64 → T) (self : AccountName)
    (table table' : Table) : Option A → Prop
  | none => table' = table
  | some x => record d self table (row x) = .ok table'

structure Effects (s s' : Ledgers) (c : Call) : Prop where
  datatable : Effect datatable TransferArgs.row c.receiver s.fbstransfer.datatable
    s'.fbstransfer.datatable (c.args (N "fbstransfer") (N "transfer") TransferArgs.serial)
  datasend : Effect datasend SendArgs.row c.receiver s.redenvelope.datasend
    s'.redenvelope.datasend (c.args (N "redenvelope") (N "send") SendArgs.serial)
  datarecv : Effect datarecv RecvArgs.row c.receiver s.redenvelope.datarecv
    s'.redenvelope.datarecv (c.args (N "redenvelope") (N "recv") RecvArgs.serial)
  game : Effect game CreateArgs.row c.receiver s.egggame.game
    s'.egggame.game (c.args (N "egggame") (N "create") CreateArgs.serial)
  betinfo : Effect betinfo BetArgs.betRow c.receiver s.egggame.betinfo
    s'.egggame.betinfo (c.args (N "egggame") (N "bet") BetArgs.serial)
  settledata : Effect settledata BetArgs.settleRow c.receiver s.egggame.settledata
    s'.egggame.settledata (c.args (N "egggame") (N "settlement") BetArgs.serial)

section Dispatch

variable {σ : Type} {receiver code action : AccountName} {data : Bytes} {s s' : σ}
  {handlers : List (AccountName × Result σ)}

/-- An action that succeeds has been handled, or has changed nothing. -/
theorem dispatch_ok (h : dispatch receiver code action s handlers = .ok s')
    (hnames : ∀ p ∈ handlers, p.1 ≠ N "onerror") :
    (code = receiver ∧ ∃ p ∈ handlers, p.1 = action ∧ p.2 = .ok s') ∨
      s' = s ∧ (code = receiver → ∀ p ∈ handlers, p.1 ≠ action) := by
  rw [dispatch, bind_eq_ok] at h
  obtain ⟨_, -, h⟩ := h
  split at h
  · rename_i hcode
    cases hfind : handlers.find? fun p => p.1 = action with
    | some p =>
        rw [hfind] at h
        have hp := List.mem_of_find?_eq_some hfind
        have haction : p.1 = action := by simpa using List.find?_some hfind
        refine .inl ⟨hcode.resolve_right fun hon => hnames p hp (haction.trans hon), p, hp, haction, h⟩
    | none =>
        rw [hfind] at h
        cases h
        exact .inr ⟨rfl, fun _ p hp => by simpa using List.find?_eq_none.mp hfind p hp⟩
  · rename_i hcode
    cases h
    exact .inr ⟨rfl, fun heq => absurd (.inl heq) hcode⟩

/-- An action that was executed has written the table `f` makes of its arguments. -/
theorem executeAction_ok {α τ : Type} {args : Serial α} {f : α → Result τ} {g : τ → σ}
    (h : executeAction args data (fun a => f a >>= fun table => pure (g table)) = .ok s') :
    ∃ a table, (args.unpack data).toOption = some a ∧ f a = .ok table ∧ g table = s' := by
  obtain ⟨a, ha, h⟩ := bind_eq_ok.mp h
  obtain ⟨table, htable, h⟩ := bind_eq_ok.mp h
  exact ⟨a, table, by rw [ha]; rfl, htable, pure_eq_ok.mp h⟩

end Dispatch

theorem Call.args_of {A : Type} {c : Call} {contract action : AccountName} (s : Serial A)
    (hreceiver : c.receiver = contract) (hcode : c.code = c.receiver) (haction : c.action = action) :
    c.args contract action s = (s.unpack c.data).toOption :=
  if_pos ⟨hreceiver, hcode.trans hreceiver, haction⟩

theorem Call.args_none {A : Type} {c : Call} {contract action : AccountName} (s : Serial A)
    (h : c.receiver = contract → c.code = c.receiver → c.action ≠ action) :
    c.args contract action s = none :=
  if_neg fun ⟨hreceiver, hcode, haction⟩ => h hreceiver (hcode.trans hreceiver.symm) haction

theorem Effect.none {T A : Type} {d : Schema NoIndex T} {row : A → UInt64 → T} {self : AccountName}
    {table : Table} {o : Option A} (h : o = none) : Effect d row self table table o := by
  subst h
  rfl

/-- The effect of a handler that records its arguments. -/
theorem Effect.some {T A : Type} {d : Schema NoIndex T} {row : A → UInt64 → T} {self : AccountName}
    {table table' : Table} {o : Option A} {a : A} (h : o = some a)
    (hr : record d self table (row a) = .ok table') : Effect d row self table table' o := by
  subst h
  exact hr

theorem Fbstransfer.apply_effect {c : Call} (hself : c.receiver = N "fbstransfer") {t t' : Fbstransfer}
    (h : t.apply c.receiver c.code c.action c.data = .ok t') :
    Effect Appcode.datatable TransferArgs.row c.receiver t.datatable t'.datatable
      (c.args (N "fbstransfer") (N "transfer") TransferArgs.serial) := by
  have hnames : N "transfer" ≠ N "onerror" := by decide +kernel
  rcases dispatch_ok h (by simpa using hnames) with ⟨hcode, p, hp, haction, hr⟩ | ⟨rfl, hnone⟩
  · obtain rfl := List.mem_singleton.mp hp
    obtain ⟨a, table, ha, hrecord, rfl⟩ := executeAction_ok hr
    exact .some ((Call.args_of _ hself hcode haction.symm).trans ha) hrecord
  · exact .none (Call.args_none _ fun _ hcode haction =>
      hnone hcode _ (List.mem_singleton.mpr rfl) haction.symm)

theorem Redenvelope.apply_effect {c : Call} (hself : c.receiver = N "redenvelope")
    {t t' : Redenvelope} (h : t.apply c.receiver c.code c.action c.data = .ok t') :
    Effect Appcode.datasend SendArgs.row c.receiver t.datasend t'.datasend
        (c.args (N "redenvelope") (N "send") SendArgs.serial) ∧
      Effect Appcode.datarecv RecvArgs.row c.receiver t.datarecv t'.datarecv
        (c.args (N "redenvelope") (N "recv") RecvArgs.serial) := by
  have hsend : N "send" ≠ N "onerror" := by decide +kernel
  have hrecv : N "recv" ≠ N "onerror" := by decide +kernel
  have hdiff : N "send" ≠ N "recv" := by decide +kernel
  rcases dispatch_ok h (by simpa using ⟨hsend, hrecv⟩) with
    ⟨hcode, p, hp, haction, hr⟩ | ⟨rfl, hnone⟩
  · rcases List.mem_cons.mp hp with rfl | hp
    · obtain ⟨a, table, ha, hrecord, rfl⟩ := executeAction_ok hr
      exact ⟨.some ((Call.args_of _ hself hcode haction.symm).trans ha) hrecord,
        .none (Call.args_none _ fun _ _ heq => hdiff (haction.trans heq))⟩
    · obtain rfl := List.mem_singleton.mp hp
      obtain ⟨a, table, ha, hrecord, rfl⟩ := executeAction_ok hr
      exact ⟨.none (Call.args_none _ fun _ _ heq => hdiff (haction.trans heq).symm),
        .some ((Call.args_of _ hself hcode haction.symm).trans ha) hrecord⟩
  · refine ⟨.none (Call.args_none _ fun _ hcode haction => ?_),
      .none (Call.args_none _ fun _ hcode haction => ?_)⟩
    · exact hnone hcode _ List.mem_cons_self haction.symm
    · exact hnone hcode _ (List.mem_cons_of_mem _ (List.mem_singleton.mpr rfl)) haction.symm

theorem Egggame.apply_effect {c : Call} (hself : c.receiver = N "egggame") {t t' : Egggame}
    (h : t.apply c.receiver c.code c.action c.data = .ok t') :
    Effect Appcode.game CreateArgs.row c.receiver t.game t'.game
        (c.args (N "egggame") (N "create") CreateArgs.serial) ∧
      Effect Appcode.betinfo BetArgs.betRow c.receiver t.betinfo t'.betinfo
        (c.args (N "egggame") (N "bet") BetArgs.serial) ∧
      Effect Appcode.settledata BetArgs.settleRow c.receiver t.settledata t'.settledata
        (c.args (N "egggame") (N "settlement") BetArgs.serial) := by
  have hcreate : N "create" ≠ N "onerror" := by decide +kernel
  have hbet : N "bet" ≠ N "onerror" := by decide +kernel
  have hsettle : N "settlement" ≠ N "onerror" := by decide +kernel
  have hcb : N "create" ≠ N "bet" := by decide +kernel
  have hcs : N "create" ≠ N "settlement" := by decide +kernel
  have hbs : N "bet" ≠ N "settlement" := by decide +kernel
  rcases dispatch_ok h (by simpa using ⟨hcreate, hbet, hsettle⟩) with
    ⟨hcode, p, hp, haction, hr⟩ | ⟨rfl, hnone⟩
  · rcases List.mem_cons.mp hp with rfl | hp
    · obtain ⟨a, table, ha, hrecord, rfl⟩ := executeAction_ok hr
      exact ⟨.some ((Call.args_of _ hself hcode haction.symm).trans ha) hrecord,
        .none (Call.args_none _ fun _ _ heq => hcb (haction.trans heq)),
        .none (Call.args_none _ fun _ _ heq => hcs (haction.trans heq))⟩
    · rcases List.mem_cons.mp hp with rfl | hp
      · obtain ⟨a, table, ha, hrecord, rfl⟩ := executeAction_ok hr
        exact ⟨.none (Call.args_none _ fun _ _ heq => hcb (haction.trans heq).symm),
          .some ((Call.args_of _ hself hcode haction.symm).trans ha) hrecord,
          .none (Call.args_none _ fun _ _ heq => hbs (haction.trans heq))⟩
      · obtain rfl := List.mem_singleton.mp hp
        obtain ⟨a, table, ha, hrecord, rfl⟩ := executeAction_ok hr
        exact ⟨.none (Call.args_none _ fun _ _ heq => hcs (haction.trans heq).symm),
          .none (Call.args_none _ fun _ _ heq => hbs (haction.trans heq).symm),
          .some ((Call.args_of _ hself hcode haction.symm).trans ha) hrecord⟩
  · refine ⟨.none (Call.args_none _ fun _ hcode haction => ?_),
      .none (Call.args_none _ fun _ hcode haction => ?_),
      .none (Call.args_none _ fun _ hcode haction => ?_)⟩
    · exact hnone hcode _ List.mem_cons_self haction.symm
    · exact hnone hcode _ (List.mem_cons_of_mem _ List.mem_cons_self) haction.symm
    · exact hnone hcode _ (List.mem_cons_of_mem _ (List.mem_cons_of_mem _
        (List.mem_singleton.mpr rfl))) haction.symm

/-- A call for another account. -/
theorem Call.args_elsewhere {A : Type} {c : Call} {contract action : AccountName} (s : Serial A)
    (h : c.receiver ≠ contract) : c.args contract action s = none :=
  Call.args_none s fun hreceiver => absurd hreceiver h

/-- Every call has its effect on the six tables. -/
theorem step_effects {s s' : Ledgers} {c : Call} (h : step s c = .ok s') : Effects s s' c := by
  have hfr : N "fbstransfer" ≠ N "redenvelope" := by decide +kernel
  have hfe : N "fbstransfer" ≠ N "egggame" := by decide +kernel
  have hre : N "redenvelope" ≠ N "egggame" := by decide +kernel
  rw [step] at h
  split at h
  · rename_i hself
    obtain ⟨t, ht, h⟩ := bind_eq_ok.mp h
    cases h
    have hr : c.receiver ≠ N "redenvelope" := fun heq => hfr (hself.symm.trans heq)
    have he : c.receiver ≠ N "egggame" := fun heq => hfe (hself.symm.trans heq)
    exact ⟨Fbstransfer.apply_effect hself ht, .none (Call.args_elsewhere _ hr),
      .none (Call.args_elsewhere _ hr), .none (Call.args_elsewhere _ he),
      .none (Call.args_elsewhere _ he), .none (Call.args_elsewhere _ he)⟩
  · rename_i hf
    split at h
    · rename_i hself
      obtain ⟨t, ht, h⟩ := bind_eq_ok.mp h
      cases h
      have he : c.receiver ≠ N "egggame" := fun heq => hre (hself.symm.trans heq)
      obtain ⟨hsend, hrecv⟩ := Redenvelope.apply_effect hself ht
      exact ⟨.none (Call.args_elsewhere _ hf), hsend, hrecv, .none (Call.args_elsewhere _ he),
        .none (Call.args_elsewhere _ he), .none (Call.args_elsewhere _ he)⟩
    · rename_i hr
      split at h
      · rename_i hself
        obtain ⟨t, ht, h⟩ := bind_eq_ok.mp h
        cases h
        obtain ⟨hcreate, hbet, hsettle⟩ := Egggame.apply_effect hself ht
        exact ⟨.none (Call.args_elsewhere _ hf), .none (Call.args_elsewhere _ hr),
          .none (Call.args_elsewhere _ hr), hcreate, hbet, hsettle⟩
      · rename_i he
        cases h
        exact ⟨.none (Call.args_elsewhere _ hf), .none (Call.args_elsewhere _ hr),
          .none (Call.args_elsewhere _ hr), .none (Call.args_elsewhere _ he),
          .none (Call.args_elsewhere _ he), .none (Call.args_elsewhere _ he)⟩

/-! ### Runs -/

variable {T A : Type} {d : Schema NoIndex T} {row : A → UInt64 → T} {table table' : Table}

/-- A log stays one, with the arguments of the call behind the others. -/
theorem Logged.effect {l : List A} (h : Logged d row table l)
    (hid : ∀ x id, d.primaryKey (row x id) = id) {self : AccountName} {o : Option A}
    (heff : Effect d row self table table' o) :
    Logged d row table' (l ++ o.toList) ∧ table.rows <+: table'.rows := by
  cases o with
  | none =>
      obtain rfl : table' = table := heff
      exact ⟨(List.append_nil l).symm ▸ h, List.prefix_refl _⟩
  | some x => exact h.record hid heff

theorem recorded_concat (cs : List Call) (c : Call) (contract action : AccountName) (s : Serial A) :
    recorded (cs ++ [c]) contract action s =
      recorded cs contract action s ++ (c.args contract action s).toList := by
  rw [recorded, List.filterMap_append, ← recorded, List.filterMap_cons]
  cases c.args contract action s <;> rfl

/-- `P` holds of every table and the arguments that the calls `cs` have for it. -/
structure ForTables (P : ∀ {T A : Type}, Schema NoIndex T → (A → UInt64 → T) → Table → List A → Prop)
    (s : Ledgers) (cs : List Call) : Prop where
  datatable : P datatable TransferArgs.row s.fbstransfer.datatable
    (recorded cs (N "fbstransfer") (N "transfer") TransferArgs.serial)
  datasend : P datasend SendArgs.row s.redenvelope.datasend
    (recorded cs (N "redenvelope") (N "send") SendArgs.serial)
  datarecv : P datarecv RecvArgs.row s.redenvelope.datarecv
    (recorded cs (N "redenvelope") (N "recv") RecvArgs.serial)
  game : P game CreateArgs.row s.egggame.game
    (recorded cs (N "egggame") (N "create") CreateArgs.serial)
  betinfo : P betinfo BetArgs.betRow s.egggame.betinfo
    (recorded cs (N "egggame") (N "bet") BetArgs.serial)
  settledata : P settledata BetArgs.settleRow s.egggame.settledata
    (recorded cs (N "egggame") (N "settlement") BetArgs.serial)

/-- The tables are the logs of the calls `cs`. -/
abbrev AllLogged (s : Ledgers) (cs : List Call) : Prop := ForTables @Logged s cs

/-- The rows of `s` come first in the tables of `s'`. -/
structure Extends (s s' : Ledgers) : Prop where
  datatable : s.fbstransfer.datatable.rows <+: s'.fbstransfer.datatable.rows
  datasend : s.redenvelope.datasend.rows <+: s'.redenvelope.datasend.rows
  datarecv : s.redenvelope.datarecv.rows <+: s'.redenvelope.datarecv.rows
  game : s.egggame.game.rows <+: s'.egggame.game.rows
  betinfo : s.egggame.betinfo.rows <+: s'.egggame.betinfo.rows
  settledata : s.egggame.settledata.rows <+: s'.egggame.settledata.rows

theorem Extends.refl (s : Ledgers) : Extends s s :=
  ⟨List.prefix_refl _, List.prefix_refl _, List.prefix_refl _, List.prefix_refl _,
    List.prefix_refl _, List.prefix_refl _⟩

theorem Extends.trans {s₁ s₂ s₃ : Ledgers} (h : Extends s₁ s₂) (h' : Extends s₂ s₃) : Extends s₁ s₃ :=
  ⟨h.datatable.trans h'.datatable, h.datasend.trans h'.datasend, h.datarecv.trans h'.datarecv,
    h.game.trans h'.game, h.betinfo.trans h'.betinfo, h.settledata.trans h'.settledata⟩

theorem allLogged_nil : AllLogged {} [] :=
  ⟨logged_nil _ _, logged_nil _ _, logged_nil _ _, logged_nil _ _, logged_nil _ _, logged_nil _ _⟩

theorem allLogged_step {s s' : Ledgers} {cs : List Call} {c : Call} (h : AllLogged s cs)
    (hs : Appcode.step s c = .ok s') : AllLogged s' (cs ++ [c]) ∧ Extends s s' := by
  have heff := step_effects hs
  have htransfer := h.datatable.effect (fun _ _ => rfl) heff.datatable
  have hsend := h.datasend.effect (fun _ _ => rfl) heff.datasend
  have hrecv := h.datarecv.effect (fun _ _ => rfl) heff.datarecv
  have hcreate := h.game.effect (fun _ _ => rfl) heff.game
  have hbet := h.betinfo.effect (fun _ _ => rfl) heff.betinfo
  have hsettle := h.settledata.effect (fun _ _ => rfl) heff.settledata
  simp only [← recorded_concat] at htransfer hsend hrecv hcreate hbet hsettle
  exact ⟨⟨htransfer.1, hsend.1, hrecv.1, hcreate.1, hbet.1, hsettle.1⟩,
    ⟨htransfer.2, hsend.2, hrecv.2, hcreate.2, hbet.2, hsettle.2⟩⟩

theorem allLogged_run (cs : List Call) :
    AllLogged (run Appcode.step {} cs) (accepted Appcode.step {} cs) :=
  run_induction_accepted (I := AllLogged) (fun _ _ _ _ h hs => (allLogged_step h hs).1) cs allLogged_nil

/-- Rows that are there are there for good. -/
theorem extends_run (cs cs' : List Call) :
    Extends (run Appcode.step {} cs) (run Appcode.step {} (cs ++ cs')) := by
  rw [run_append]
  refine (run_induction (I := fun s => (∃ ds, AllLogged s ds) ∧
    Extends (run Appcode.step {} cs) s) ?_ cs' ⟨⟨_, allLogged_run cs⟩, .refl _⟩).2
  rintro s c s' ⟨⟨ds, hlogged⟩, hext⟩ hs
  obtain ⟨hlogged', hext'⟩ := allLogged_step hlogged hs
  exact ⟨⟨_, hlogged'⟩, hext.trans hext'⟩

/-- What a reader unpacks from the table: the arguments of `l`, each under its
position, of which there are fewer than keys. -/
def Reads (d : Schema NoIndex T) (row : A → UInt64 → T) (table : Table) (l : List A) : Prop :=
  l.length ≤ 0xFFFFFFFFFFFFFFFE ∧ table.rows.map (fun p => (p.1, d.serial.unpack p.2)) =
    l.mapIdx fun i x => (i.toUInt64, .ok (row x i.toUInt64))

theorem Logged.reads {l : List A} (h : Logged d row table l) : Reads d row table l := ⟨h.1, h.unpack⟩

/-- After any run a table holds the arguments of the accepted actions that it is
for, in order and under the keys from zero on; a longer run only adds rows
behind these; and the wider `gameid` of a bet has the value of the argument. -/
theorem ledgers_append_only (cs cs' : List Call) :
    ForTables @Reads (run step {} cs) (accepted step {} cs) ∧
      Extends (run step {} cs) (run step {} (cs ++ cs')) ∧
      ∀ (a : BetArgs) (id : UInt64), (a.betRow id).gameid.toNat = a.gameid.toNat := by
  have h := allLogged_run cs
  refine ⟨⟨h.datatable.reads, h.datasend.reads, h.datarecv.reads, h.game.reads, h.betinfo.reads,
    h.settledata.reads⟩, extends_run cs cs', fun a id => ?_⟩
  exact UInt32.toNat_toUInt64 a.gameid

/-! ### Authority -/

/-- A call that adds a row carries the authority of the contract. -/
def Authentic (s : Ledgers) (c : Call) (s' : Ledgers) : Prop :=
  (s'.fbstransfer.datatable.rows ≠ s.fbstransfer.datatable.rows → N "fbstransfer" ∈ c.auth) ∧
  (s'.redenvelope.datasend.rows ≠ s.redenvelope.datasend.rows ∨
    s'.redenvelope.datarecv.rows ≠ s.redenvelope.datarecv.rows → N "redenvelope" ∈ c.auth) ∧
  (s'.egggame.game.rows ≠ s.egggame.game.rows ∨ s'.egggame.betinfo.rows ≠ s.egggame.betinfo.rows ∨
    s'.egggame.settledata.rows ≠ s.egggame.settledata.rows → N "egggame" ∈ c.auth)

instance (s : Ledgers) (c : Call) (s' : Ledgers) : Decidable (Authentic s c s') :=
  inferInstanceAs (Decidable (_ ∧ _ ∧ _))

/-- Rows are added by the actions of their contract only, with the arguments of
these; whatever authority they carry, the tables become the same. -/
theorem ledgers_any_authority (cs : List Call) (auth : Call → List AccountName) :
    Along step (fun s c s' => Effects s s' c) {} cs ∧
      run step {} (cs.map fun c => { c with auth := auth c }) = run step {} cs := by
  refine ⟨along_of fun s c s' => step_effects, ?_⟩
  rw [run, run, List.foldl_map]
  rfl

/-- A transfer from `a` to `c` under the authority of a stranger. -/
def forged : Call where
  receiver := N "fbstransfer"
  code := N "fbstransfer"
  action := N "transfer"
  data := [1, 97, 1, 98, 1, 99, 1, 100, 16, 39, 0, 0, 0, 0, 0, 0, 4, 83, 89, 83, 0, 0, 0, 0, 0]
  auth := [N "stranger"]

theorem forged_not_authentic : ¬ Along step Authentic {} [forged] := by
  decide +kernel

end Xidata.Appcode
