import Xidata.Identity.OwnerFound

/-!
Who owns an identity, in the two modes.  The read-only mode hears all the flagged
certifications, the updating mode those that its walk comes to, and of the others it takes the
first where the read-only mode hears all.  They find the same owner if what is not heard would
not change it; and the next call does if what was moved is heard as before.
-/

namespace Xidata.Identity

open Eosiolib (AccountName)

section Conditions

variable (j : Judge) (t : CertsTable)

/-- Nothing is moved: all flagged certifications that count but for the trust are trusted, and
if nobody is named by flagged ones then nobody is by the others. -/
def Unmoved : Prop :=
  (∀ q ∈ flaggedCerts t, q.2.stale j = false) ∧
    (unflaggedAccounts j t = [] ∨ ∃ a ∈ flaggedAccounts j t, a ≠ 0)

/-- No certification that counts names the account zero, which stands for nobody. -/
def NamesAccounts : Prop := 0 ∉ flaggedAccounts j t ∧ 0 ∉ unflaggedAccounts j t

/-- The certifications after a walk that heard nobody. -/
def refreshed : CertsTable := promoteFirst j (demoteMoved j t)

/-- What is heard by the walk that moves rows speaks for what is not. -/
def SpeaksAlike : Prop :=
  match reachedAccounts j t, unflaggedAccounts j t with
  -- Those it comes to: if they agree, then all flagged ones do.
  | _ :: _, _ => ∀ a, AllName (reachedAccounts j t) a → AllName (flaggedAccounts j t) a
  -- It hears nobody at all: the flagged ones name nobody, and the next walk finds nobody.
  | [], [] => ∀ a,
      ¬AllName (flaggedAccounts j t) a ∧ ¬AllName (reachedAccounts j (refreshed j t)) a
  -- It takes the first of the others: all flagged ones name it, or there are none and all the
  -- others do; and the next walk hears somebody, or that account from the others.
  | [], a :: others =>
      (AllName (flaggedAccounts j t) a ∨
        flaggedAccounts j t = [] ∧ AllName (unflaggedAccounts j t) a) ∧
      (reachedAccounts j (refreshed j t) ≠ [] ∨ others.head? = some a)

def Steady : Prop := Unmoved j t ∨ NamesAccounts j t ∧ SpeaksAlike j t

end Conditions

variable {j : Judge} {t t' : CertsTable} {a : AccountName}

/-! ### The certifications after a call -/

variable {s : State} {activeProducers : List AccountName} {ident : IdentityName}

end Xidata.Identity
