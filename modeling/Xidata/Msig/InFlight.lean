import Xidata.Msig.Invariant

/-!
Approvals on their way to the contract.  An approver reads the transaction that
is stored for a proposal and submits an approval, which names the proposal only
by its key; it is delivered later, with any other actions between.  What was
read may have been replaced by then.
-/

namespace Xidata.Msig

open Eosiolib Rollback OrderedTable

/-! ### The network -/

/-- An approval in flight, with the authority it carries and the transaction
that its sender has read. -/
structure Message where
  key : Scoped
  level : PermissionLevel
  auth : List PermissionLevel
  read : Bytes
  deriving DecidableEq

structure Network where
  contract : State
  pending : List Message

def Network.init : Network := ⟨.init, []⟩

inductive NetworkEvent
  | submit (m : Message)
  | deliver (m : Message) (ctx : Ctx)
  /-- Any action of the contract that is no approval. -/
  | act (e : Event)

/-- The approval as the contract gets it. -/
def Message.event (m : Message) (ctx : Ctx) : Event :=
  ⟨{ ctx with auth := m.auth }, .approve m.key m.level⟩

def Action.isApprove : Action → Bool
  | .approve .. => true
  | _ => false

/-- An event that cannot happen, or whose action fails, changes nothing. -/
def Network.step (s : Network) : NetworkEvent → Except Unit Network
  | .submit m =>
    if m.level ∈ m.auth ∧ (s.contract.proposals.find m.key).map Proposal.packedTransaction = some m.read
    then .ok { s with pending := m :: s.pending }
    else .error ()
  | .deliver m ctx =>
    if m ∈ s.pending then
      match Msig.step s.contract (m.event ctx) with
      | .ok contract => .ok ⟨contract, s.pending.erase m⟩
      | .error _ => .error ()
    else .error ()
  | .act e =>
    if e.action.isApprove then .error ()
    else
      match Msig.step s.contract e with
      | .ok contract => .ok { s with contract }
      | .error _ => .error ()

def NetworkEvent.proposes (e : NetworkEvent) (key : Scoped) : Bool :=
  match e with
  | .act e => e.proposes key
  | _ => false

/-! ### What one action leaves -/

variable {s s' : State} {e : Event} {key : Scoped}

/-- A transaction that is stored was stored before, or has just been proposed. -/
theorem Does.proposal_of (hd : Does s e s') {prop : Proposal}
    (hprop : s'.proposals.find key = some prop) :
    s.proposals.find key = some prop ∨ e.proposes key := by
  by_cases hk : e.key? = some key
  · rw [Event.key?] at hk
    cases hd with
    | propose haction hparse _ _ =>
        refine .inr ?_
        rw [Event.proposes]
        rw [haction] at hk ⊢
        exact decide_eq_true hk
    | approve haction _ _ _ => exact .inl hprop
    | unapprove haction _ _ _ => exact .inl hprop
    | cancel haction _ _ =>
        rw [haction] at hk
        obtain rfl := Option.some.inj hk
        cases (find_erase_self _ _).symm.trans hprop
    | exec haction _ _ _ _ _ =>
        rw [haction] at hk
        obtain rfl := Option.some.inj hk
        cases (find_erase_self _ _).symm.trans hprop
  · exact .inl ((hd.frame hk).1 ▸ hprop)

/-- A level that is provided has been before, or has just been approved, for the
transaction that was stored then. -/
theorem Does.provided_of (hd : Does s e s') {apps : ApprovalsInfo} {level : PermissionLevel}
    (happs : s'.approvals.find key = some apps) (hlevel : level ∈ apps.providedApprovals) :
    (s'.proposals.find key = s.proposals.find key ∨ s'.proposals.find key = none) ∧
      (e.action = .approve key level ∨
        ∃ apps₀, s.approvals.find key = some apps₀ ∧ level ∈ apps₀.providedApprovals) := by
  by_cases hk : e.key? = some key
  · cases hd with
    | propose haction hparse _ _ =>
        obtain rfl := Option.some.inj ((Event.key?_propose haction hparse).symm.trans hk)
        obtain rfl := Option.some.inj ((find_set_self _ _ _).symm.trans happs)
        cases hlevel
    | approve haction _ happs₀ _ =>
        rw [Event.key?, haction] at hk
        obtain rfl := Option.some.inj hk
        obtain rfl := Option.some.inj ((find_set_self _ _ _).symm.trans happs)
        refine ⟨.inl rfl, ?_⟩
        rcases List.mem_append.mp hlevel with hold | hnew
        · exact .inr ⟨_, happs₀, hold⟩
        · rw [List.mem_singleton.mp hnew]
          exact .inl haction
    | unapprove haction _ happs₀ _ =>
        rw [Event.key?, haction] at hk
        obtain rfl := Option.some.inj hk
        obtain rfl := Option.some.inj ((find_set_self _ _ _).symm.trans happs)
        exact ⟨.inl rfl, .inr ⟨_, happs₀, List.mem_of_mem_erase hlevel⟩⟩
    | cancel haction _ _ =>
        rw [Event.key?, haction] at hk
        obtain rfl := Option.some.inj hk
        cases (find_erase_self _ _).symm.trans happs
    | exec haction _ _ _ _ _ =>
        rw [Event.key?, haction] at hk
        obtain rfl := Option.some.inj hk
        cases (find_erase_self _ _).symm.trans happs
  · obtain ⟨hprop, happs'⟩ := hd.frame hk
    exact ⟨.inl hprop, .inr ⟨apps, happs' ▸ happs, hlevel⟩⟩

/-! ### Where approvals come from -/

/-- A message was submitted in `h`, and what it has read is still stored unless the
proposal has been proposed again since. -/
def Submitted (s : Network) (h : List NetworkEvent) (m : Message) : Prop :=
  ∃ before after, h = before ++ .submit m :: after ∧ m.level ∈ m.auth ∧
    ∀ prop, s.contract.proposals.find m.key = some prop →
      m.read = prop.packedTransaction ∨ ∃ e ∈ after, e.proposes m.key

/-- A provided level was submitted and later delivered in `h`, and what its owner
has read is stored now unless the proposal was proposed again between the two. -/
def Delivered (s : Network) (h : List NetworkEvent) (key : Scoped) (level : PermissionLevel) : Prop :=
  ∃ m ctx before between after, h = before ++ .submit m :: (between ++ .deliver m ctx :: after) ∧
    m.key = key ∧ m.level = level ∧ level ∈ m.auth ∧
    ∀ prop, s.contract.proposals.find key = some prop →
      m.read = prop.packedTransaction ∨ ∃ e ∈ between, e.proposes key

structure Origins (s : Network) (h : List NetworkEvent) : Prop where
  pending : ∀ m ∈ s.pending, Submitted s h m
  provided : ∀ key apps, s.contract.approvals.find key = some apps →
    ∀ level ∈ apps.providedApprovals, Delivered s h key level

variable {n n' : Network} {h : List NetworkEvent} {e : NetworkEvent}

theorem Submitted.later {m : Message} (hm : Submitted n h m)
    (hprop : ∀ prop, n'.contract.proposals.find m.key = some prop →
      n.contract.proposals.find m.key = some prop ∨ e.proposes m.key) :
    Submitted n' (h ++ [e]) m := by
  obtain ⟨before, after, rfl, hauth, hread⟩ := hm
  refine ⟨before, after ++ [e], by simp, hauth, fun prop hp => ?_⟩
  rcases hprop prop hp with hold | hnew
  · rcases hread prop hold with hsame | ⟨e', he', hproposes⟩
    · exact .inl hsame
    · exact .inr ⟨e', List.mem_append_left _ he', hproposes⟩
  · exact .inr ⟨e, List.mem_concat_self, hnew⟩

theorem Delivered.later {key : Scoped} {level : PermissionLevel} (hd : Delivered n h key level)
    (hprop : n'.contract.proposals.find key = n.contract.proposals.find key ∨
      n'.contract.proposals.find key = none) : Delivered n' (h ++ [e]) key level := by
  obtain ⟨m, ctx, before, between, after, rfl, hkey, hlevel, hauth, hread⟩ := hd
  refine ⟨m, ctx, before, between, after ++ [e], by simp, hkey, hlevel, hauth, fun prop hp => ?_⟩
  rcases hprop with hsame | hnone
  · exact hread prop (hsame ▸ hp)
  · cases hnone.symm.trans hp

/-- A message that is delivered is where its level comes from. -/
theorem Submitted.deliver {m : Message} {ctx : Ctx} (hm : Submitted n h m)
    (hprop : ∀ prop, n'.contract.proposals.find m.key = some prop →
      n.contract.proposals.find m.key = some prop) :
    Delivered n' (h ++ [.deliver m ctx]) m.key m.level := by
  obtain ⟨before, after, rfl, hauth, hread⟩ := hm
  exact ⟨m, ctx, before, after, [], by simp, rfl, rfl, hauth, fun prop hp => hread prop (hprop prop hp)⟩

theorem origins_submit {m : Message} (ho : Origins n h) (hauth : m.level ∈ m.auth)
    (hread : (n.contract.proposals.find m.key).map Proposal.packedTransaction = some m.read) :
    Origins { n with pending := m :: n.pending } (h ++ [.submit m]) where
  pending m' hm' := by
    rcases List.mem_cons.mp hm' with rfl | hm'
    · refine ⟨h, [], rfl, hauth, fun prop hp => .inl ?_⟩
      have hfound : n.contract.proposals.find m'.key = some prop := hp
      rw [hfound] at hread
      exact (Option.some.inj hread).symm
    · exact (ho.pending m' hm').later fun prop hp => .inl hp
  provided key apps ha level hlevel := (ho.provided key apps ha level hlevel).later (.inl rfl)

theorem origins_deliver {m : Message} {ctx : Ctx} {contract : State} (ho : Origins n h)
    (hm : m ∈ n.pending) (hd : Does n.contract (m.event ctx) contract) :
    Origins ⟨contract, n.pending.erase m⟩ (h ++ [.deliver m ctx]) where
  pending m' hm' := by
    refine (ho.pending m' (List.mem_of_mem_erase hm')).later fun prop hp => ?_
    exact .inl ((hd.proposal_of hp).resolve_right Bool.false_ne_true)
  provided key apps ha level hlevel := by
    obtain ⟨hprop, hfrom⟩ := hd.provided_of ha hlevel
    rcases hfrom with haction | ⟨apps₀, happs₀, hlevel₀⟩
    · obtain ⟨rfl, rfl⟩ := Action.approve.inj haction
      refine (ho.pending m hm).deliver fun prop hp => ?_
      exact (hd.proposal_of hp).resolve_right Bool.false_ne_true
    · exact (ho.provided key apps₀ happs₀ level hlevel₀).later hprop

theorem origins_act {e : Event} {contract : State} (ho : Origins n h) (he : ¬ e.action.isApprove)
    (hd : Does n.contract e contract) : Origins { n with contract } (h ++ [.act e]) where
  pending m hm := (ho.pending m hm).later fun _ hp => hd.proposal_of hp
  provided key apps ha level hlevel := by
    obtain ⟨hprop, hfrom⟩ := hd.provided_of ha hlevel
    rcases hfrom with haction | ⟨apps₀, happs₀, hlevel₀⟩
    · rw [haction] at he
      exact absurd rfl he
    · exact (ho.provided key apps₀ happs₀ level hlevel₀).later hprop

theorem Origins.step (ho : Origins n h) (hs : n.step e = .ok n') : Origins n' (h ++ [e]) := by
  cases e with
  | submit m =>
      rw [Network.step] at hs
      split at hs
      · rename_i hsubmit
        cases hs
        exact origins_submit ho hsubmit.1 hsubmit.2
      · cases hs
  | deliver m ctx =>
      rw [Network.step] at hs
      split at hs
      · rename_i hm
        split at hs
        · rename_i contract hcontract
          cases hs
          exact origins_deliver ho hm (does_of_step hcontract)
        · cases hs
      · cases hs
  | act e =>
      rw [Network.step] at hs
      split at hs
      · cases hs
      · rename_i he
        split at hs
        · rename_i contract hcontract
          cases hs
          exact origins_act ho he (does_of_step hcontract)
        · cases hs

/-- A submission is of what is stored at that time, by the owner of the level. -/
def Honest (s : Network) (e : NetworkEvent) (_ : Network) : Prop :=
  ∀ m, e = .submit m → m.level ∈ m.auth ∧
    (s.contract.proposals.find m.key).map Proposal.packedTransaction = some m.read

/-- Every level that is provided was submitted by its owner after reading the
transaction that was then stored under the key, and it is the one that is
stored now unless the key was proposed again while the approval was in flight. -/
theorem approvals_origins (es : List NetworkEvent) :
    Along Network.step Honest .init es ∧
      ∀ key prop apps, (run Network.step .init es).contract.proposals.find key = some prop →
        (run Network.step .init es).contract.approvals.find key = some apps →
        ∀ level ∈ apps.providedApprovals, ∃ m ctx before between after,
          accepted Network.step .init es =
            before ++ .submit m :: (between ++ .deliver m ctx :: after) ∧
          m.key = key ∧ m.level = level ∧
          (m.read = prop.packedTransaction ∨ ∃ e ∈ between, e.proposes key) := by
  have hinit : Origins .init [] := ⟨fun _ hm => (by cases hm), fun _ _ ha => (by cases ha)⟩
  have ho : Origins (run Network.step .init es) (accepted Network.step .init es) :=
    run_induction_accepted (I := Origins) (fun _ _ _ _ ho hs => ho.step hs) es hinit
  refine ⟨along_of fun s e s' hs m hm => ?_, fun key prop apps hp ha level hlevel => ?_⟩
  · subst hm
    rw [Network.step] at hs
    split at hs
    · assumption
    · cases hs
  · obtain ⟨m, ctx, before, between, after, hh, hkey, hlevel, -, hread⟩ :=
      ho.provided key apps ha level hlevel
    exact ⟨m, ctx, before, between, after, hh, hkey, hlevel, hread prop hp⟩

/-! ### A proposal that is replaced -/

/-- The owner of every provided level has read what `exec` would send now. -/
def Looked (s : Network) (h : List NetworkEvent) : Prop :=
  ∀ key prop apps, s.contract.proposals.find key = some prop →
    s.contract.approvals.find key = some apps → ∀ level ∈ apps.providedApprovals,
    ∃ m ctx, .deliver m ctx ∈ h ∧ m.key = key ∧ m.level = level ∧ m.read = prop.packedTransaction

/-- The key with proposer `1` and name `2`. -/
def disputed : Scoped := ⟨1, 2⟩

/-- The level that is asked for, of the account `3`. -/
def asked : PermissionLevel := ⟨3, 4⟩

/-- The context of the proposer, on a chain that authorizes everything. -/
def byProposer : Ctx where
  auth := [⟨1, 4⟩]
  currentTime := 0
  checkTransactionAuthorization := fun _ _ => 1
  acceptsDeferred := true

/-- A transaction header with a delay, of a transaction that never expires. -/
def trxWithDelay (delay : UInt8) : Bytes := [255, 255, 255, 255, 0, 0, 0, 0, 0, 0, 0, 0, delay]

/-- The data of `propose` for the key, the level and the transaction. -/
def proposeData (delay : UInt8) : Bytes :=
  [1, 0, 0, 0, 0, 0, 0, 0, 2, 0, 0, 0, 0, 0, 0, 0, 1, 3, 0, 0, 0, 0, 0, 0, 0, 4, 0, 0, 0, 0, 0, 0, 0] ++
    trxWithDelay delay

/-- The approval of the transaction without a delay. -/
def staleApproval : Message := ⟨disputed, asked, [asked], trxWithDelay 0⟩

/-- The proposer replaces the transaction while the approval is in flight. -/
def replacing : List NetworkEvent :=
  [.act ⟨byProposer, .propose (proposeData 0)⟩, .submit staleApproval,
    .act ⟨byProposer, .cancel disputed 1⟩, .act ⟨byProposer, .propose (proposeData 1)⟩,
    .deliver staleApproval byProposer]

theorem replaced_unread :
    ¬ Looked (run Network.step .init replacing) (accepted Network.step .init replacing) := by
  intro h
  have hprop : (run Network.step .init replacing).contract.proposals.find disputed =
      some ⟨2, trxWithDelay 1⟩ := by
    decide +kernel
  have happs : (run Network.step .init replacing).contract.approvals.find disputed =
      some ⟨2, [], [asked]⟩ := by
    decide +kernel
  have hall : accepted Network.step .init replacing = replacing := by
    rfl
  obtain ⟨m, ctx, hmem, -, -, hread⟩ := h disputed _ _ hprop happs asked List.mem_cons_self
  rw [hall] at hmem
  simp only [replacing, List.mem_cons, reduceCtorEq, NetworkEvent.deliver.injEq, false_or,
    List.not_mem_nil, or_false] at hmem
  rw [hmem.1] at hread
  exact absurd hread (by decide)

end Xidata.Msig
