import Mathlib.Tactic.Linarith
import Xidata.Msig.Contract

/-!
What holds of the multisig contract in every state of every run.  The history
of accepted actions says what the tables hold: a proposal is there from its
`propose` to the next `cancel` or `exec` of its key, and its approvals are what
has happened to them since.
-/

namespace Xidata.Msig

open Eosiolib Rollback OrderedTable

/-! ### What an action does -/

/-- An action that succeeds, with what it found and what it leaves. -/
inductive Does (s : State) (e : Event) : State → Prop
  | propose {data : Bytes} {p : Proposed} (haction : e.action = .propose data)
      (hparse : Proposed.parse data = .ok p) (hprop : s.proposals.find p.key = none)
      (happs : s.approvals.find p.key = none) :
      Does s e { s with
        proposals := s.proposals.set p.key ⟨p.key.key, data.drop p.trxPos⟩
        approvals := s.approvals.set p.key ⟨p.key.key, p.requested, []⟩ }
  | approve {key : Scoped} {level : PermissionLevel} {apps : ApprovalsInfo}
      (haction : e.action = .approve key level) (hauth : level ∈ e.ctx.auth)
      (happs : s.approvals.find key = some apps) (hlevel : level ∈ apps.requestedApprovals) :
      Does s e { s with
        approvals := s.approvals.set key { apps with
          providedApprovals := apps.providedApprovals ++ [level]
          requestedApprovals := apps.requestedApprovals.erase level } }
  | unapprove {key : Scoped} {level : PermissionLevel} {apps : ApprovalsInfo}
      (haction : e.action = .unapprove key level) (hauth : level ∈ e.ctx.auth)
      (happs : s.approvals.find key = some apps) (hlevel : level ∈ apps.providedApprovals) :
      Does s e { s with
        approvals := s.approvals.set key { apps with
          requestedApprovals := apps.requestedApprovals ++ [level]
          providedApprovals := apps.providedApprovals.erase level } }
  | cancel {key : Scoped} {canceler : AccountName} {prop : Proposal} {apps : ApprovalsInfo}
      (haction : e.action = .cancel key canceler) (hprop : s.proposals.find key = some prop)
      (happs : s.approvals.find key = some apps) :
      Does s e { s with proposals := s.proposals.erase key, approvals := s.approvals.erase key }
  | exec {key : Scoped} {executer : AccountName} {prop : Proposal} {apps : ApprovalsInfo}
      {header : TransactionHeader} (haction : e.action = .exec key executer)
      (hprop : s.proposals.find key = some prop) (happs : s.approvals.find key = some apps)
      (hheader : headerSerial.unpack prop.packedTransaction = .ok header)
      (hexpiration : e.ctx.now ≤ header.expiration)
      (hcheck : 0 < e.ctx.checkTransactionAuthorization prop.packedTransaction
        apps.providedApprovals) :
      Does s e {
        proposals := s.proposals.erase key
        approvals := s.approvals.erase key
        sent := s.sent ++ [⟨senderId key, executer, prop.packedTransaction⟩] }

theorem requireLevel_eq_ok {c : Ctx} {level : PermissionLevel} {u : Unit} :
    requireLevel c level = .ok u ↔ level ∈ c.auth := by
  unfold requireLevel
  split <;> simp [*]

theorem does_of_step {s s' : State} {e : Event} (h : step s e = .ok s') : Does s e s' := by
  rw [step] at h
  cases haction : e.action with
  | propose data =>
      simp only [haction, propose, bind_eq_ok, eosioAssert_eq_ok, pure_eq_ok] at h
      obtain ⟨p, hparse, _, -, _, -, _, hprop, _, -, _, happs, rfl⟩ := h
      exact .propose haction hparse hprop happs
  | approve key level =>
      simp only [haction, approve, bind_eq_ok, requireLevel_eq_ok, getRow_eq_ok, eosioAssert_eq_ok,
        pure_eq_ok] at h
      obtain ⟨_, hauth, apps, happs, _, hlevel, rfl⟩ := h
      exact .approve haction hauth happs hlevel
  | unapprove key level =>
      simp only [haction, unapprove, bind_eq_ok, requireLevel_eq_ok, getRow_eq_ok, eosioAssert_eq_ok,
        pure_eq_ok] at h
      obtain ⟨_, hauth, apps, happs, _, hlevel, rfl⟩ := h
      exact .unapprove haction hauth happs hlevel
  | cancel key canceler =>
      simp only [haction, cancel, bind_eq_ok, getRow_eq_ok] at h
      obtain ⟨_, -, prop, hprop, h⟩ := h
      split at h
      · simp only [bind_eq_ok, getRow_eq_ok, pure_eq_ok] at h
        obtain ⟨_, -, _, -, apps, happs, rfl⟩ := h
        exact .cancel haction hprop happs
      · simp only [bind_eq_ok, getRow_eq_ok, pure_eq_ok] at h
        obtain ⟨apps, happs, rfl⟩ := h
        exact .cancel haction hprop happs
  | exec key executer =>
      simp only [haction, exec, bind_eq_ok, getRow_eq_ok, eosioAssert_eq_ok, pure_eq_ok] at h
      obtain ⟨_, -, prop, hprop, apps, happs, header, hheader, _, hexpiration, _, hcheck, _, -, rfl⟩ := h
      exact .exec haction hprop happs hheader hexpiration hcheck

/-! ### The history of a proposal -/

/-- The event proposes under the key. -/
def Event.proposes (e : Event) (key : Scoped) : Bool :=
  match e.action with
  | .propose data => ((Proposed.parse data).toOption.map Proposed.key) = some key
  | _ => false

def Event.approves (e : Event) (key : Scoped) (level : PermissionLevel) : Bool :=
  e.action = .approve key level

def Event.unapproves (e : Event) (key : Scoped) (level : PermissionLevel) : Bool :=
  e.action = .unapprove key level

/-- The event cancels or executes the proposal. -/
def Event.closes (e : Event) (key : Scoped) : Bool :=
  match e.action with
  | .cancel key' _ => key' = key
  | .exec key' _ => key' = key
  | _ => false

/-- The proposal that an event is about. -/
def Event.key? (e : Event) : Option Scoped :=
  match e.action with
  | .propose data => (Proposed.parse data).toOption.map Proposed.key
  | .approve key _ => some key
  | .unapprove key _ => some key
  | .cancel key _ => some key
  | .exec key _ => some key

/-- The rows of a key after the event that proposed `p` with the data, and the
events `since` then. -/
structure Underway (key : Scoped) (data : Bytes) (p : Proposed) (since : List Event)
    (prop : Proposal) (apps : ApprovalsInfo) : Prop where
  parse : Proposed.parse data = .ok p
  keyed : p.key = key
  open_ : ∀ e ∈ since, ¬ e.proposes key ∧ ¬ e.closes key
  packed : prop.packedTransaction = data.drop p.trxPos
  perm : (apps.requestedApprovals ++ apps.providedApprovals).Perm p.requested
  provided : ∀ level, apps.providedApprovals.count level +
    since.countP (fun e => e.unapproves key level) = since.countP fun e => e.approves key level
  authorized : ∀ e ∈ since, ∀ level, e.approves key level → level ∈ e.ctx.auth

/-- The rows of a key are those of its last proposal. -/
def Dates (h : List Event) (key : Scoped) (prop : Proposal) (apps : ApprovalsInfo) : Prop :=
  ∃ before e data p since, h = before ++ e :: since ∧ e.action = .propose data ∧
    Underway key data p since prop apps

variable {s s' : State} {e : Event} {h : List Event} {key : Scoped} {prop : Proposal}
  {apps : ApprovalsInfo} {level : PermissionLevel}

/-! ### One more event -/

/-- An event that neither proposes nor closes may move one level. -/
theorem Dates.snoc {apps' : ApprovalsInfo} (hd : Dates h key prop apps) (hpropose : ¬ e.proposes key)
    (hcloses : ¬ e.closes key)
    (hperm : (apps'.requestedApprovals ++ apps'.providedApprovals).Perm
      (apps.requestedApprovals ++ apps.providedApprovals))
    (hcount : ∀ level, apps'.providedApprovals.count level + (if e.unapproves key level then 1 else 0) =
      apps.providedApprovals.count level + if e.approves key level then 1 else 0)
    (hauth : ∀ level, e.approves key level → level ∈ e.ctx.auth) : Dates (h ++ [e]) key prop apps' := by
  obtain ⟨before, e₀, data, p, since, rfl, haction, hu⟩ := hd
  refine ⟨before, e₀, data, p, since ++ [e], by simp, haction, hu.parse, hu.keyed, ?_, hu.packed,
    hperm.trans hu.perm, fun level => ?_, ?_⟩
  · intro e' he'
    rcases List.mem_append.mp he' with he' | he'
    · exact hu.open_ e' he'
    · rw [List.mem_singleton.mp he']
      exact ⟨hpropose, hcloses⟩
  · rw [List.countP_append, List.countP_append, List.countP_singleton, List.countP_singleton]
    have hbefore := hu.provided level
    have hone := hcount level
    omega
  · intro e' he' level hlevel
    rcases List.mem_append.mp he' with he' | he'
    · exact hu.authorized e' he' level hlevel
    · rw [List.mem_singleton.mp he'] at hlevel ⊢
      exact hauth level hlevel

theorem count_append_singleton (l : List PermissionLevel) (a b : PermissionLevel) :
    (l ++ [a]).count b = l.count b + if a = b then 1 else 0 := by
  rw [List.count_append, List.count_singleton]
  by_cases hab : a = b <;> simp [hab]

theorem count_erase_add {l : List PermissionLevel} {a : PermissionLevel} (ha : a ∈ l)
    (b : PermissionLevel) : ((l.erase a).count b + if a = b then 1 else 0) = l.count b := by
  rw [(List.perm_cons_erase ha).count_eq b, List.count_cons]
  by_cases hab : a = b <;> simp [hab]

theorem Dates.approve (hd : Dates h key prop apps) (haction : e.action = .approve key level)
    (hauth : level ∈ e.ctx.auth) (hlevel : level ∈ apps.requestedApprovals) :
    Dates (h ++ [e]) key prop { apps with
      providedApprovals := apps.providedApprovals ++ [level]
      requestedApprovals := apps.requestedApprovals.erase level } := by
  have happroves : ∀ level', e.approves key level' ↔ level = level' := fun level' => by
    rw [Event.approves, haction]
    simp
  refine hd.snoc ?_ ?_ ?_ (fun level' => ?_) fun level' h' => (happroves level').mp h' ▸ hauth
  · rw [Event.proposes, haction]
    exact Bool.false_ne_true
  · rw [Event.closes, haction]
    exact Bool.false_ne_true
  · show (apps.requestedApprovals.erase level ++ (apps.providedApprovals ++ [level])).Perm _
    rw [← List.append_assoc]
    refine (List.perm_append_singleton _ _).trans ?_
    exact (List.perm_cons_erase hlevel).symm.append_right _
  · have hun : e.unapproves key level' = false := by
      rw [Event.unapproves, haction]
      rfl
    simp only [count_append_singleton, happroves, hun, Bool.false_eq_true, if_false, add_zero]

theorem Dates.unapprove (hd : Dates h key prop apps) (haction : e.action = .unapprove key level)
    (hlevel : level ∈ apps.providedApprovals) :
    Dates (h ++ [e]) key prop { apps with
      requestedApprovals := apps.requestedApprovals ++ [level]
      providedApprovals := apps.providedApprovals.erase level } := by
  have happ : ∀ level', e.approves key level' = false := fun level' => by
    rw [Event.approves, haction]
    rfl
  have hunapproves : ∀ level', e.unapproves key level' ↔ level = level' := fun level' => by
    rw [Event.unapproves, haction]
    simp
  refine hd.snoc ?_ ?_ ?_ (fun level' => ?_) fun level' h' => ?_
  · rw [Event.proposes, haction]
    exact Bool.false_ne_true
  · rw [Event.closes, haction]
    exact Bool.false_ne_true
  · show ((apps.requestedApprovals ++ [level]) ++ apps.providedApprovals.erase level).Perm _
    rw [List.append_assoc, List.singleton_append]
    exact (List.perm_cons_erase hlevel).symm.append_left _
  · simp only [count_erase_add hlevel, hunapproves, happ, Bool.false_eq_true, if_false, add_zero]
  · rw [happ] at h'
    cases h'

theorem Event.key?_propose {data : Bytes} {p : Proposed} (haction : e.action = .propose data)
    (hparse : Proposed.parse data = .ok p) : e.key? = some p.key := by
  rw [Event.key?, haction]
  show (Proposed.parse data).toOption.map Proposed.key = _
  rw [hparse]
  rfl

/-- What an event is not when it is about another proposal. -/
theorem Event.elsewhere {k : Scoped} (hk : e.key? ≠ some k) :
    e.proposes k = false ∧ e.closes k = false ∧ (∀ level, e.approves k level = false) ∧
      ∀ level, e.unapproves k level = false := by
  unfold Event.proposes Event.closes Event.approves Event.unapproves
  rw [Event.key?] at hk
  cases haction : e.action with
  | propose data => simpa [haction] using hk
  | approve key level => simpa [haction] using fun heq => absurd heq (by simpa [haction] using hk)
  | unapprove key level => simpa [haction] using fun heq => absurd heq (by simpa [haction] using hk)
  | cancel key canceler => simpa [haction] using hk
  | exec key executer => simpa [haction] using hk

/-- The rows of other proposals stay as they are. -/
theorem Does.frame {k : Scoped} (hd : Does s e s') (hk : e.key? ≠ some k) :
    s'.proposals.find k = s.proposals.find k ∧ s'.approvals.find k = s.approvals.find k := by
  cases hd with
  | propose haction hparse _ _ =>
      have hne : k ≠ _ := fun heq => hk (heq ▸ Event.key?_propose haction hparse)
      exact ⟨find_set_of_ne _ hne _, find_set_of_ne _ hne _⟩
  | approve haction _ _ _ =>
      rw [Event.key?, haction] at hk
      have hne : k ≠ _ := fun heq => hk (congrArg some heq.symm)
      exact ⟨rfl, find_set_of_ne _ hne _⟩
  | unapprove haction _ _ _ =>
      rw [Event.key?, haction] at hk
      have hne : k ≠ _ := fun heq => hk (congrArg some heq.symm)
      exact ⟨rfl, find_set_of_ne _ hne _⟩
  | cancel haction _ _ =>
      rw [Event.key?, haction] at hk
      have hne : k ≠ _ := fun heq => hk (congrArg some heq.symm)
      exact ⟨find_erase_of_ne _ hne, find_erase_of_ne _ hne⟩
  | exec haction _ _ _ _ _ =>
      rw [Event.key?, haction] at hk
      have hne : k ≠ _ := fun heq => hk (congrArg some heq.symm)
      exact ⟨find_erase_of_ne _ hne, find_erase_of_ne _ hne⟩

theorem Dates.skip {k : Scoped} (hd : Dates h k prop apps) (hk : e.key? ≠ some k) :
    Dates (h ++ [e]) k prop apps := by
  obtain ⟨hpropose, hcloses, happrove, hunapprove⟩ := Event.elsewhere hk
  refine hd.snoc (Bool.not_eq_true _ ▸ hpropose) (Bool.not_eq_true _ ▸ hcloses) (.refl _)
    (fun level => ?_) fun level h' => ?_
  · rw [happrove, hunapprove]
  · rw [happrove] at h'
    cases h'

/-- The rows of a new proposal. -/
theorem dates_propose {data : Bytes} {p : Proposed} (h : List Event) (haction : e.action = .propose data)
    (hparse : Proposed.parse data = .ok p) :
    Dates (h ++ [e]) p.key ⟨p.key.key, data.drop p.trxPos⟩ ⟨p.key.key, p.requested, []⟩ := by
  refine ⟨h, e, data, p, [], rfl, haction, hparse, rfl, ?_, rfl, ?_, fun level => rfl, ?_⟩
  · intro e' he'
    cases he'
  · show (p.requested ++ []).Perm _
    rw [List.append_nil]
  · intro e' he'
    cases he'

/-- What is said of one key, in the state after an event about it. -/
structure KeyInv (s : State) (h : List Event) (key : Scoped) : Prop where
  keys : (s.proposals.find key).isSome = (s.approvals.find key).isSome
  dates : ∀ prop apps, s.proposals.find key = some prop → s.approvals.find key = some apps →
    Dates h key prop apps
  closed : h.countP (fun e => e.proposes key) =
    h.countP (fun e => e.closes key) + if (s.proposals.find key).isSome then 1 else 0

theorem KeyInv.skip {k : Scoped} (hinv : KeyInv s h k) (hd : Does s e s') (hk : e.key? ≠ some k) :
    KeyInv s' (h ++ [e]) k := by
  obtain ⟨hprop, happs⟩ := hd.frame hk
  obtain ⟨hpropose, hcloses, -, -⟩ := Event.elsewhere hk
  refine ⟨?_, fun prop apps hp ha => ?_, ?_⟩
  · rw [hprop, happs, hinv.keys]
  · exact (hinv.dates prop apps (hprop ▸ hp) (happs ▸ ha)).skip hk
  · rw [List.countP_append, List.countP_append, List.countP_singleton, List.countP_singleton,
      hpropose, hcloses, hprop]
    exact hinv.closed

theorem KeyInv.propose {data : Bytes} {p : Proposed} (hold : KeyInv s h p.key)
    (haction : e.action = .propose data) (hparse : Proposed.parse data = .ok p)
    (hprop : s.proposals.find p.key = none) :
    KeyInv { s with
      proposals := s.proposals.set p.key ⟨p.key.key, data.drop p.trxPos⟩
      approvals := s.approvals.set p.key ⟨p.key.key, p.requested, []⟩ } (h ++ [e]) p.key := by
  have hproposes : e.proposes p.key = true := by
    rw [Event.proposes, haction]
    show decide ((Proposed.parse data).toOption.map Proposed.key = some p.key) = true
    rw [hparse]
    exact decide_eq_true rfl
  have hcloses : e.closes p.key = false := by
    rw [Event.closes, haction]
  refine ⟨?_, fun prop apps hp ha => ?_, ?_⟩
  · simp only [find_set_self, Option.isSome_some]
  · obtain rfl := Option.some.inj ((find_set_self _ _ _).symm.trans hp)
    obtain rfl := Option.some.inj ((find_set_self _ _ _).symm.trans ha)
    exact dates_propose h haction hparse
  · have hclosed := hold.closed
    rw [hprop] at hclosed
    simpa [List.countP_append, List.countP_singleton, hproposes, hcloses] using hclosed

/-- The approvals of a proposal get another row. -/
theorem KeyInv.update {apps' : ApprovalsInfo} (hold : KeyInv s h key)
    (happs : s.approvals.find key = some apps) (hproposes : e.proposes key = false)
    (hcloses : e.closes key = false)
    (hdates : ∀ prop, Dates h key prop apps → Dates (h ++ [e]) key prop apps') :
    KeyInv { s with approvals := s.approvals.set key apps' } (h ++ [e]) key := by
  refine ⟨?_, fun prop apps₂ hp ha => ?_, ?_⟩
  · simp only [find_set_self, Option.isSome_some]
    rw [hold.keys, happs, Option.isSome_some]
  · obtain rfl := Option.some.inj ((find_set_self _ _ _).symm.trans ha)
    exact hdates prop (hold.dates prop apps hp happs)
  · simpa [List.countP_append, List.countP_singleton, hproposes, hcloses] using hold.closed

/-- The rows of a proposal are erased. -/
theorem KeyInv.close {sent : List Deferred} (hold : KeyInv s h key)
    (hprop : s.proposals.find key = some prop) (hproposes : e.proposes key = false)
    (hcloses : e.closes key = true) :
    KeyInv ⟨s.proposals.erase key, s.approvals.erase key, sent⟩ (h ++ [e]) key := by
  refine ⟨?_, fun prop' apps' hp _ => ?_, ?_⟩
  · rw [find_erase_self, find_erase_self]
    rfl
  · cases (find_erase_self _ _).symm.trans hp
  · have hclosed := hold.closed
    rw [hprop] at hclosed
    simpa [List.countP_append, List.countP_singleton, hproposes, hcloses] using hclosed

theorem KeyInv.step (hinv : ∀ k, KeyInv s h k) (hd : Does s e s') (k : Scoped) :
    KeyInv s' (h ++ [e]) k := by
  by_cases hk : e.key? = some k
  · have hold := hinv k
    cases hd with
    | propose haction hparse hprop happs =>
        obtain rfl := Option.some.inj ((Event.key?_propose haction hparse).symm.trans hk)
        exact hold.propose haction hparse hprop
    | approve haction hauth happs hlevel =>
        rw [Event.key?, haction] at hk
        obtain rfl := Option.some.inj hk
        refine hold.update happs ?_ ?_ fun prop hdates => hdates.approve haction hauth hlevel
        · rw [Event.proposes, haction]
        · rw [Event.closes, haction]
    | unapprove haction hauth happs hlevel =>
        rw [Event.key?, haction] at hk
        obtain rfl := Option.some.inj hk
        refine hold.update happs ?_ ?_ fun prop hdates => hdates.unapprove haction hlevel
        · rw [Event.proposes, haction]
        · rw [Event.closes, haction]
    | cancel haction hprop happs =>
        rw [Event.key?, haction] at hk
        obtain rfl := Option.some.inj hk
        refine hold.close hprop ?_ ?_
        · rw [Event.proposes, haction]
        · rw [Event.closes, haction]
          exact decide_eq_true rfl
    | exec haction hprop happs hheader hexpiration hcheck =>
        rw [Event.key?, haction] at hk
        obtain rfl := Option.some.inj hk
        refine hold.close hprop ?_ ?_
        · rw [Event.proposes, haction]
        · rw [Event.closes, haction]
          exact decide_eq_true rfl
  · exact (hinv k).skip hd hk

theorem keyInv_run (es : List Event) (k : Scoped) :
    KeyInv (run step State.init es) (accepted step State.init es) k := by
  have hinit : ∀ k, KeyInv State.init [] k := fun k =>
    ⟨rfl, fun prop apps hp => (by cases hp), rfl⟩
  exact run_induction_accepted (I := fun s h => ∀ k, KeyInv s h k)
    (fun _ _ _ _ hinv hs => KeyInv.step hinv (does_of_step hs)) es hinit k

/-! ### Approvals that stand -/

/-- Where `p` outnumbers `q`, there is a `p` behind which `q` never does. -/
theorem exists_standing {α : Type} (p q : α → Bool) {l s : List α} (hs : s <:+ l)
    (hlt : s.countP q < s.countP p) :
    ∃ before a after, l = before ++ a :: after ∧ p a ∧
      ∀ t, t <+: after → t.countP q ≤ t.countP p := by
  induction l generalizing s with
  | nil =>
      rw [List.suffix_nil.mp hs] at hlt
      exact absurd hlt (lt_irrefl _)
  | cons x l ih =>
      by_cases hrest : ∃ s, s <:+ l ∧ s.countP q < s.countP p
      · obtain ⟨s', hs', hlt'⟩ := hrest
        obtain ⟨before, a, after, rfl, ha, hafter⟩ := ih hs' hlt'
        exact ⟨x :: before, a, after, rfl, ha, hafter⟩
      · -- no shorter end of the list has more `p`, so that the first element is one
        have hle : ∀ s, s <:+ l → s.countP p ≤ s.countP q := fun s hs =>
          not_lt.mp fun hlt => hrest ⟨s, hs, hlt⟩
        rcases List.suffix_cons_iff.mp hs with rfl | hs
        · have hwhole := hle l (List.suffix_refl l)
          rw [List.countP_cons, List.countP_cons] at hlt
          have hp : p x = true := by
            by_contra hp
            rw [if_neg hp] at hlt
            omega
          refine ⟨[], x, l, rfl, hp, fun t ht => ?_⟩
          obtain ⟨u, rfl⟩ := ht
          have hu := hle u (List.suffix_append t u)
          rw [hp, if_pos rfl] at hlt
          rw [List.countP_append, List.countP_append] at hlt
          omega
        · exact absurd hlt (not_lt.mpr (hle s hs))

/-- The holder of the level has approved the proposal, and the level has not been
withdrawn since more often than granted again. -/
def Standing (since : List Event) (key : Scoped) (level : PermissionLevel) : Prop :=
  ∃ before a after, since = before ++ a :: after ∧ a.approves key level ∧ level ∈ a.ctx.auth ∧
    ∀ l, l <+: after →
      l.countP (fun e => e.unapproves key level) ≤ l.countP fun e => e.approves key level

theorem Underway.standing {data : Bytes} {p : Proposed} {since : List Event}
    (hu : Underway key data p since prop apps) (hlevel : level ∈ apps.providedApprovals) :
    Standing since key level := by
  have hpos : 0 < apps.providedApprovals.count level := List.count_pos_iff.mpr hlevel
  have hcount := hu.provided level
  obtain ⟨before, a, after, rfl, ha, hafter⟩ := exists_standing
    (fun e : Event => e.approves key level) (fun e => e.unapproves key level)
    (List.suffix_refl since) (by omega)
  exact ⟨before, a, after, rfl, ha, hu.authorized a (by simp) level ha, hafter⟩

/-! ### Runs -/

/-- The tables agree with the accepted events `h`: both have the rows of the same
proposals; these are as proposed, with the approvals that stand; and a proposal
is closed once at most. -/
structure Agrees (s : State) (h : List Event) : Prop where
  keys : ∀ key, (s.proposals.find key).isSome = (s.approvals.find key).isSome
  rows : ∀ key prop apps, s.proposals.find key = some prop → s.approvals.find key = some apps →
    ∃ before e data p since, h = before ++ e :: since ∧ e.action = .propose data ∧
      Underway key data p since prop apps ∧ ∀ level ∈ apps.providedApprovals, Standing since key level
  closed : ∀ key, h.countP (fun e => e.proposes key) =
    h.countP (fun e => e.closes key) + if (s.proposals.find key).isSome then 1 else 0

/-- Only `exec` sends, and only the stored transaction of a proposal, which is
gone afterwards: unexpired, and authorized by the provided approvals. -/
def Sends (s : State) (e : Event) (s' : State) : Prop :=
  match e.action with
  | .exec key executer => ∃ prop apps header,
      s.proposals.find key = some prop ∧ s.approvals.find key = some apps ∧
      headerSerial.unpack prop.packedTransaction = .ok header ∧ e.ctx.now ≤ header.expiration ∧
      0 < e.ctx.checkTransactionAuthorization prop.packedTransaction apps.providedApprovals ∧
      s'.sent = s.sent ++ [⟨senderId key, executer, prop.packedTransaction⟩] ∧
      s'.proposals.find key = none
  | _ => s'.sent = s.sent

theorem Does.sends (hd : Does s e s') : Sends s e s' := by
  cases hd with
  | propose haction _ _ _ => rw [Sends, haction]
  | approve haction _ _ _ => rw [Sends, haction]
  | unapprove haction _ _ _ => rw [Sends, haction]
  | cancel haction _ _ => rw [Sends, haction]
  | exec haction hprop happs hheader hexpiration hcheck =>
      rw [Sends, haction]
      exact ⟨_, _, _, hprop, happs, hheader, hexpiration, hcheck, rfl, find_erase_self _ _⟩

theorem msig_run (es : List Event) :
    Agrees (run step .init es) (accepted step .init es) ∧ Along step Sends .init es := by
  refine ⟨⟨fun key => (keyInv_run es key).keys, fun key prop apps hp ha => ?_,
    fun key => (keyInv_run es key).closed⟩, along_of fun _ _ _ hs => (does_of_step hs).sends⟩
  obtain ⟨before, e, data, p, since, hh, haction, hu⟩ := (keyInv_run es key).dates prop apps hp ha
  exact ⟨before, e, data, p, since, hh, haction, hu, fun level hlevel => hu.standing hlevel⟩

end Xidata.Msig
