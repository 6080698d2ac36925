import Xidata.Eosiolib.Types
import Xidata.Library.Rollback

/-!
What an action without inline actions needs of the chain: the authorities it carries, and a
way to be refused as a whole.
-/

namespace Xidata.Eosiolib

/-- Why an action is refused. -/
inductive Refusal
  | missingAuthority (account : AccountName)
  | assertion (msg : String)
  deriving DecidableEq

abbrev Checked := Except Refusal

/-- `eosio_assert`. -/
def check (test : Prop) [Decidable test] (msg : String) : Checked Unit :=
  if test then .ok () else .error (.assertion msg)

@[simp] theorem check_eq_ok {test : Prop} [Decidable test] {msg : String} {u : Unit} :
    check test msg = .ok u ↔ test := by
  unfold check
  split <;> simp [*]

theorem check_of_not {test : Prop} [Decidable test] (h : ¬ test) (msg : String) :
    check test msg = .error (.assertion msg) := if_neg h

/-- `require_auth`. -/
def demandAuth (auth : List AccountName) (account : AccountName) : Checked Unit :=
  if account ∈ auth then .ok () else .error (.missingAuthority account)

@[simp] theorem demandAuth_eq_ok {auth : List AccountName} {account : AccountName} {u : Unit} :
    demandAuth auth account = .ok u ↔ account ∈ auth := by
  unfold demandAuth
  split <;> simp [*]

/-- A row that has to be there. -/
def demandRow {α : Type*} (row : Option α) (msg : String) : Checked α :=
  match row with
  | some r => .ok r
  | none => .error (.assertion msg)

@[simp] theorem demandRow_eq_ok {α : Type*} {row : Option α} {msg : String} {r : α} :
    demandRow row msg = .ok r ↔ row = some r := by
  cases row <;> simp [demandRow]

end Xidata.Eosiolib
