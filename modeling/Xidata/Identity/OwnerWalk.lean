import Mathlib.Data.List.Find
import Mathlib.Data.List.TakeWhile
import Xidata.Identity.OwnerIndex

/-!
How far the walk through the flagged certifications comes if it takes flags away.  A row whose
certifier is no longer trusted goes to those that are not flagged, and the walk goes on behind
it: if other rows are there then it has left the flagged ones and ends, and if none is then it
begins again with the first flagged one.  Whom it hears twice does not matter; whom it does
not come to does.
-/

namespace Xidata.Identity

open Eosiolib (AccountName)
open OrderedTable (place)

section Definitions

variable (j : Judge)

/-- Whom the certifications name that count, in order. -/
def named (l : List Cert) : List AccountName :=
  (l.filter fun q => q.2.valid j).map fun q => accountOf q.2.data

variable (t : CertsTable)

def flaggedAccounts : List AccountName := named j (flaggedCerts t)

def unflaggedAccounts : List AccountName := named j (unflaggedCerts t)

/-- The walk moves the row and ends there: behind its new place is a row that has not been
flagged, or one that was moved before. -/
def Stops (e : Cert) : Prop :=
  e.2.stale j ∧ ∃ r ∈ t.rows, r.2.property = owner ∧ r.2.trusted < e.2.trusted ∧
    (r.2.trusted = 0 ∨ r.2.stale j) ∧ spot e < spot r

instance : DecidablePred (Stops j t) := fun _ => inferInstanceAs (Decidable (_ ∧ _))

/-- The flagged rows before the walk ends. -/
def reached : List Cert := (flaggedCerts t).takeWhile fun e => ¬Stops j t e

def reachedAccounts : List AccountName := named j (reached j t)

/-- The rows that it moves. -/
def moved : List Cert :=
  (reached j t).filter (fun e => e.2.stale j) ++
    ((flaggedCerts t).find? fun e => Stops j t e).toList

def demoteMoved : CertsTable := (moved j t).foldl demote t

/-- The first unflagged row that counts is flagged. -/
def promoteFirst : CertsTable :=
  match (unflaggedCerts t).find? fun e => e.2.valid j with
  | some e => promote t e
  | none => t

end Definitions

variable {j : Judge} {t : CertsTable} {q e : Cert} {before rest l l' : List Cert}

/-- The first flagged row whose certifier is no longer trusted. -/
structure FirstStale (j : Judge) (t : CertsTable) (before : List Cert) (e : Cert)
    (rest : List Cert) : Prop where
  split : flaggedCerts t = before ++ e :: rest
  fresh : ∀ q ∈ before, q.2.stale j = false
  stale : e.2.stale j = true

namespace FirstStale

theorem mem (h : FirstStale j t before e rest) : e ∈ flaggedCerts t := by simp [h.split]

end FirstStale

end Xidata.Identity
