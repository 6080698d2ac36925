import Xidata.Eosiolib.Types
import Xidata.Library.OrderedTable
import Xidata.Library.Rollback

/-!
The history plugin: what it keeps of the transactions that the chain has applied.  Of the
actions that pass the filter it keeps a row, and a row for each account that is concerned;
of the actions of the system account it keeps which keys and which accounts are named in the
authorities of an account.  A row that violates the unique keys of its table throws, and
what has been written until then stays.
-/

namespace Xidata.History

open Eosiolib (AccountName N)

abbrev PublicKey := List UInt8
abbrev TransactionId := BitVec 256

structure PermissionLevel where
  actor : AccountName
  permission : AccountName
  deriving DecidableEq

structure Action where
  account : AccountName
  name : AccountName
  authorization : List PermissionLevel := []
  data : List UInt8 := []
  deriving DecidableEq

/-- An action and its receipt. -/
structure AppliedAction where
  receiver : AccountName
  globalSequence : UInt64
  act : Action
  trxId : TransactionId := 0
  deriving DecidableEq

/-- The actions that an action has sent come after it. -/
inductive ActionTrace
  | node (action : AppliedAction) (inlineTraces : List ActionTrace)

structure Authority where
  keys : List PublicKey := []
  accounts : List PermissionLevel := []
  deriving DecidableEq

structure NewAccount where
  name : AccountName
  owner : Authority
  active : Authority
  deriving DecidableEq

structure UpdateAuth where
  account : AccountName
  permission : AccountName
  auth : Authority
  deriving DecidableEq

structure DeleteAuth where
  account : AccountName
  permission : AccountName
  deriving DecidableEq

/-- `action::data_as`, which has nothing where it throws, and what is read of the account
and the number of the row past the end of an index. -/
structure Externals where
  dataAsNewAccount : Action → Option NewAccount
  dataAsUpdateAuth : Action → Option UpdateAuth
  dataAsDeleteAuth : Action → Option DeleteAuth
  pastEnd : AccountName × ℤ := (0, 0)

def systemAccountName : AccountName := N "eosio"

/-! ### The filter -/

structure FilterEntry where
  receiver : AccountName
  action : AccountName
  actor : AccountName
  deriving DecidableEq

structure Config where
  bypassFilter : Bool := false
  filterOn : List FilterEntry := []
  filterOut : List FilterEntry := []

namespace Config

variable (cfg : Config) (at_ : AppliedAction)

def filter : Bool :=
  let on action actor := decide (⟨at_.receiver, action, actor⟩ ∈ cfg.filterOn)
  let out action actor := decide (⟨at_.receiver, action, actor⟩ ∈ cfg.filterOut)
  let passOn := cfg.bypassFilter || on 0 0 || on at_.act.name 0 ||
    at_.act.authorization.any fun a => on 0 a.actor || on at_.act.name a.actor
  passOn && !(out 0 0 || out at_.act.name 0 ||
    at_.act.authorization.any fun a => out 0 a.actor || out at_.act.name a.actor)

/-- A set of accounts is walked in the order of their names. -/
def accountSet : List AccountName :=
  let on action actor := decide (⟨at_.receiver, action, actor⟩ ∈ cfg.filterOn)
  let out action actor := decide (⟨at_.receiver, action, actor⟩ ∈ cfg.filterOut)
  (at_.act.authorization.foldl (fun result a =>
    if cfg.bypassFilter || on 0 0 || on 0 a.actor || on at_.act.name 0 || on at_.act.name a.actor then
      if !out 0 0 && !out 0 a.actor && !out at_.act.name 0 && !out at_.act.name a.actor then
        result.set a.actor ()
      else result
    else result) (OrderedTable.empty.set at_.receiver ())).keys

end Config

/-! ### The tables -/

/-- The rows of an account are ordered by their numbers.  `strayReads` counts how often the
row past the end has been read. -/
structure Recorded where
  accountHistory : OrderedTable (AccountName ×ₗ ℤ) UInt64 := .empty
  actionHistory : OrderedTable UInt64 TransactionId := .empty
  strayReads : ℕ := 0

structure PublicKeyHistoryObject where
  publicKey : PublicKey
  name : AccountName
  permission : AccountName
  deriving DecidableEq

structure AccountControlHistoryObject where
  controlledAccount : AccountName
  controlledPermission : AccountName
  controllingAccount : AccountName
  deriving DecidableEq

structure Tables where
  recorded : Recorded := {}
  publicKeys : List PublicKeyHistoryObject := []
  accountControls : List AccountControlHistoryObject := []

/-- Why an exception is thrown: a table has the key of a new row, or the data of an action
cannot be read. -/
inductive Failure
  | accountHistory | actionHistory | accountControl | dataAs
  deriving DecidableEq

/-- What is left behind, also where an exception is thrown. -/
def left {σ : Type} : Except (Failure × σ) σ → σ
  | .ok a => a
  | .error (_, a) => a

/-- What a computation and those that follow it keep is kept, whether or not one of them
throws. -/
theorem left_bind {σ : Type} {I : σ → Prop} {x : Except (Failure × σ) σ}
    {f : σ → Except (Failure × σ) σ} (hx : I (left x)) (hf : ∀ a, I a → I (left (f a))) :
    I (left (x >>= f)) := by
  cases x with
  | ok a => exact hf a hx
  | error e => exact hx

theorem left_foldlM {σ ι : Type} {I : σ → Prop} {f : σ → ι → Except (Failure × σ) σ} {l : List ι}
    (hf : ∀ a i, I a → I (left (f a i))) {a : σ} (ha : I a) : I (left (l.foldlM f a)) := by
  induction l generalizing a with
  | nil => exact ha
  | cons i l ih => exact left_bind (hf a i ha) fun a ha => ih ha

/-- Removes the rows with the key one after the other. -/
def removeLoop {ρ : Type} (key : ρ → Bool) : ℕ → List ρ → List ρ
  | 0, rows => rows
  | fuel + 1, rows =>
    match rows.find? key with
    | none => rows
    | some _ => removeLoop key fuel (rows.eraseP key)

def remove {ρ : Type} (key : ρ → Bool) (rows : List ρ) : List ρ := removeLoop key rows.length rows

section Record

variable (cfg : Config) (ext : Externals)

/-- The row before the position of the next name, or the first row where there is none before
it: nothing in an empty index. -/
def stepBack (accountHistory : OrderedTable (AccountName ×ₗ ℤ) UInt64) (n : AccountName) :
    Option ((AccountName ×ₗ ℤ) × UInt64) :=
  (accountHistory.last fun k => k < toLex (n + 1, 0)).or (accountHistory.first fun _ => true)

def recordAccountAction (r : Recorded) (n : AccountName) (globalSequence : UInt64) :
    Except (Failure × Recorded) Recorded :=
  let itr := stepBack r.accountHistory n
  let row := (itr.map fun p => ofLex p.1).getD ext.pastEnd
  let r := if itr.isNone then { r with strayReads := r.strayReads + 1 } else r
  let asn := if row.1 = n then row.2 + 1 else 0
  if (r.accountHistory.find (toLex (n, asn))).isSome then .error (.accountHistory, r)
  else .ok { r with accountHistory := r.accountHistory.set (toLex (n, asn)) globalSequence }

/-- The part of `on_action_trace` that the filter is about. -/
def recordAction (r : Recorded) (at_ : AppliedAction) : Except (Failure × Recorded) Recorded :=
  if cfg.filter at_ then
    if (r.actionHistory.find at_.globalSequence).isSome then .error (.actionHistory, r)
    else
      (cfg.accountSet at_).foldlM (fun r a => recordAccountAction ext r a at_.globalSequence)
        { r with actionHistory := r.actionHistory.set at_.globalSequence at_.trxId }
  else .ok r

end Record

namespace Tables

def addKeys (h : Tables) (keys : List PublicKey) (name permission : AccountName) : Tables :=
  keys.foldl (fun h key => { h with publicKeys := h.publicKeys ++ [⟨key, name, permission⟩] }) h

/-- A permission has one row for each account that is named in it, whatever the permissions
of this account. -/
def addAccounts (h : Tables) (controllingAccounts : List PermissionLevel)
    (accountName permission : AccountName) : Except (Failure × Tables) Tables :=
  controllingAccounts.foldlM (fun h controllingAccount =>
    let row := ⟨accountName, permission, controllingAccount.actor⟩
    if row ∈ h.accountControls then .error (.accountControl, h)
    else .ok { h with accountControls := h.accountControls ++ [row] }) h

def removeAuthority (h : Tables) (account permission : AccountName) : Tables :=
  { h with
    publicKeys := remove (fun row => row.name = account && row.permission = permission) h.publicKeys
    accountControls := remove (fun row =>
      row.controlledAccount = account && row.controlledPermission = permission) h.accountControls }

section Plugin

variable (cfg : Config) (ext : Externals)

def onSystemAction (h : Tables) (at_ : AppliedAction) : Except (Failure × Tables) Tables :=
  if at_.act.name = N "newaccount" then
    match ext.dataAsNewAccount at_.act with
    | none => .error (.dataAs, h)
    | some create => do
      let h := h.addKeys create.owner.keys create.name (N "owner")
      let h ← h.addAccounts create.owner.accounts create.name (N "owner")
      let h := h.addKeys create.active.keys create.name (N "active")
      h.addAccounts create.active.accounts create.name (N "active")
  else if at_.act.name = N "updateauth" then
    match ext.dataAsUpdateAuth at_.act with
    | none => .error (.dataAs, h)
    | some update =>
      let h := h.removeAuthority update.account update.permission
      let h := h.addKeys update.auth.keys update.account update.permission
      h.addAccounts update.auth.accounts update.account update.permission
  else if at_.act.name = N "deleteauth" then
    match ext.dataAsDeleteAuth at_.act with
    | none => .error (.dataAs, h)
    | some del => .ok (h.removeAuthority del.account del.permission)
  else .ok h

/-- `on_action_trace` up to the inline traces. -/
def onAction (h : Tables) (at_ : AppliedAction) : Except (Failure × Tables) Tables :=
  match recordAction cfg ext h.recorded at_ with
  | .error (failure, r) => .error (failure, { h with recorded := r })
  | .ok r =>
    if at_.receiver = systemAccountName then onSystemAction ext { h with recorded := r } at_
    else .ok { h with recorded := r }

mutual

def onActionTrace (h : Tables) : ActionTrace → Except (Failure × Tables) Tables
  | .node at_ inlineTraces => do
    let h ← h.onAction cfg ext at_
    onActionTraces h inlineTraces

def onActionTraces (h : Tables) : List ActionTrace → Except (Failure × Tables) Tables
  | [] => .ok h
  | trace :: traces => do
    let h ← onActionTrace h trace
    onActionTraces h traces

end

/-- An exception ends the handling of the transaction. -/
def onAppliedTransaction (h : Tables) (actionTraces : List ActionTrace) : Tables :=
  left (h.onActionTraces cfg ext actionTraces)

end Plugin

/-! ### Queries -/

def getKeyAccounts (h : Tables) (publicKey : PublicKey) : List AccountName :=
  ((h.publicKeys.filter fun row => row.publicKey = publicKey).foldl
    (fun accounts row => accounts.set row.name ()) (OrderedTable.empty : OrderedTable AccountName Unit)).keys

def getControlledAccounts (h : Tables) (controllingAccount : AccountName) : List AccountName :=
  ((h.accountControls.filter fun row => row.controllingAccount = controllingAccount).foldl
    (fun accounts row => accounts.set row.controlledAccount ())
    (OrderedTable.empty : OrderedTable AccountName Unit)).keys

end Tables

/-! ### Traces as sequences of actions -/

mutual

/-- The actions of a trace in the order in which they are handled. -/
def ActionTrace.actions : ActionTrace → List AppliedAction
  | .node at_ inlineTraces => at_ :: allActions inlineTraces

def allActions : List ActionTrace → List AppliedAction
  | [] => []
  | trace :: traces => trace.actions ++ allActions traces

end

mutual

/-- A trace is handled as its actions are, one after the other. -/
theorem Tables.onActionTrace_eq (cfg : Config) (ext : Externals) (trace : ActionTrace) (h : Tables) :
    h.onActionTrace cfg ext trace = trace.actions.foldlM (Tables.onAction cfg ext) h :=
  match trace with
  | .node at_ inlineTraces => by
    rw [onActionTrace, ActionTrace.actions, List.foldlM_cons]
    exact bind_congr fun h => Tables.onActionTraces_eq cfg ext inlineTraces h

theorem Tables.onActionTraces_eq (cfg : Config) (ext : Externals) (traces : List ActionTrace)
    (h : Tables) : h.onActionTraces cfg ext traces = (allActions traces).foldlM (Tables.onAction cfg ext) h :=
  match traces with
  | [] => rfl
  | trace :: traces => by
    rw [onActionTraces, allActions, List.foldlM_append, Tables.onActionTrace_eq cfg ext trace h]
    exact bind_congr fun h => Tables.onActionTraces_eq cfg ext traces h

end

end Xidata.History
