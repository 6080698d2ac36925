import Mathlib.Data.Finset.Basic
import Xidata.Eosiolib.Types
import Xidata.Library.Rollback

/-!
What a contract asks of the chain while it executes an action: assertions,
authority checks, the clock, and which accounts exist.  A failed assertion
ends the whole transaction, so every contract function returns a `Result`.
-/

namespace Xidata.Eosiolib

/-- The source function an assertion stands in.  `database` and `deferred` are
the chain's own, and `deletedObject` stands for the use of an object that is
gone, which the source gives no meaning. -/
inductive Site
  | assetConstructor | assetAdd | assetSub | assetMul | assetCompare
  | multiIndex | resourceLimits
  | create | issue | transfer | subBalance
  | constructor | setram | bidname | newaccount
  | buyram | sellram | convert
  | changebw | validateB1Vesting | delegatebw | undelegatebw | refund
  | regproducer | claimrewards | updateVotes | regproxy | propagateWeightChange
  | apply
  | propose | approve | unapprove | cancel | exec
  | offerbet | canceloffer | reveal | claimexpired | deposit | withdraw
  | datastreamRead | datastreamWrite | datastreamGet | arrayRead
  | database | deletedObject | deferred | crypto
  deriving DecidableEq

inductive Failure
  | assertion (site : Site) (msg : String)
  | missingAuthority (account : AccountName)
  | recursionLimit (site : Site)
  deriving DecidableEq

/-- The assertion a failure comes from, if it is one. -/
def Failure.site? : Failure → Option Site
  | .assertion site _ => some site
  | .missingAuthority _ => none
  | .recursionLimit site => some site

abbrev Result := Except Failure

def eosioAssert (site : Site) (test : Prop) [Decidable test] (msg : String) : Result Unit :=
  if test then .ok () else .error (.assertion site msg)

@[simp] theorem eosioAssert_eq_ok {site : Site} {test : Prop} [Decidable test] {msg : String}
    {u : Unit} : eosioAssert site test msg = .ok u ↔ test := by
  unfold eosioAssert
  split <;> simp [*]

theorem eosioAssert_eq_error {site : Site} {test : Prop} [Decidable test] {msg : String}
    {f : Failure} : eosioAssert site test msg = .error f ↔ ¬ test ∧ f = .assertion site msg := by
  unfold eosioAssert
  split <;> simp [*, eq_comm]

/-- A row that must be there: `multi_index::get`. -/
def getRow {α : Type*} (site : Site) (row : Option α) (msg : String) : Result α :=
  match row with
  | some r => .ok r
  | none => .error (.assertion site msg)

@[simp] theorem getRow_eq_ok {α : Type*} {site : Site} {row : Option α} {msg : String} {r : α} :
    getRow site row msg = .ok r ↔ row = some r := by
  cases row <;> simp [getRow]

theorem getRow_eq_error {α : Type*} {site : Site} {row : Option α} {msg : String} {f : Failure} :
    getRow site row msg = .error f ↔ row = none ∧ f = .assertion site msg := by
  cases row <;> simp [getRow, eq_comm]

/-- What one action sees of the chain: the authorities it carries, the block
time in microseconds, and the existing accounts. -/
structure Ctx where
  auth : List AccountName
  currentTime : UInt64
  accounts : Finset AccountName

def Ctx.now (c : Ctx) : UInt32 := (c.currentTime / 1000000).toUInt32

def Ctx.isAccount (c : Ctx) (account : AccountName) : Prop := account ∈ c.accounts

instance (c : Ctx) (account : AccountName) : Decidable (c.isAccount account) :=
  inferInstanceAs (Decidable (account ∈ c.accounts))

def requireAuth (c : Ctx) (account : AccountName) : Result Unit :=
  if account ∈ c.auth then .ok () else .error (.missingAuthority account)

@[simp] theorem requireAuth_eq_ok {c : Ctx} {account : AccountName} {u : Unit} :
    requireAuth c account = .ok u ↔ account ∈ c.auth := by
  unfold requireAuth
  split <;> simp [*]

theorem requireAuth_eq_error {c : Ctx} {account : AccountName} {f : Failure} :
    requireAuth c account = .error f ↔ account ∉ c.auth ∧ f = .missingAuthority account := by
  unfold requireAuth
  split <;> simp [*, eq_comm]

/-! ### Failures that cannot happen -/

section Avoids

variable {B : Failure → Prop}

theorem avoids_eosioAssert {site : Site} {test : Prop} [Decidable test] {msg : String}
    (h : ¬ test → ¬ B (.assertion site msg)) : Rollback.Avoids B (eosioAssert site test msg) :=
  fun f hf => by
    obtain ⟨htest, rfl⟩ := eosioAssert_eq_error.mp hf
    exact h htest

theorem avoids_getRow {α : Type} {site : Site} {row : Option α} {msg : String}
    (h : row = none → ¬ B (.assertion site msg)) : Rollback.Avoids B (getRow site row msg) :=
  fun f hf => by
    obtain ⟨hrow, rfl⟩ := getRow_eq_error.mp hf
    exact h hrow

theorem avoids_requireAuth {c : Ctx} {account : AccountName}
    (h : ¬ B (.missingAuthority account)) : Rollback.Avoids B (requireAuth c account) :=
  fun f hf => by
    obtain ⟨-, rfl⟩ := requireAuth_eq_error.mp hf
    exact h

end Avoids

end Xidata.Eosiolib
