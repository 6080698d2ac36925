import Xidata.Identity.Interface

/-!
The owner certifications in the index.  Those that are not flagged as trusted come first, then
those that are; each loop begins with the first of its own, and goes on until the first of
something else.
-/

namespace Xidata.Identity

open Eosiolib (AccountName)
open OrderedTable (place)

abbrev Cert := UInt64 × CertRow

/-- What decides about certifications of an identity: who claims it, and who is trusted. -/
structure Judge where
  claims : AccountName → Bool
  trusts : AccountName → Bool

namespace CertRow

/-- The account that is named claims the identity. -/
def claimed (j : Judge) (row : CertRow) : Bool :=
  row.data.length = 8 && j.claims (accountOf row.data)

/-- A certification that counts. -/
def valid (j : Judge) (row : CertRow) : Bool := row.claimed j && j.trusts row.certifier

/-- A certification that counts but for the trust. -/
def stale (j : Judge) (row : CertRow) : Bool := row.claimed j && !j.trusts row.certifier

def isFlagged (row : CertRow) : Bool := row.property = owner ∧ row.trusted ≠ 0

def isUnflagged (row : CertRow) : Bool := row.property = owner ∧ row.trusted = 0

/-- The flag is changed. -/
def withFlag (row : CertRow) (trusted : UInt64) : CertRow := { row with trusted }

variable {j : Judge} {row : CertRow} {trusted : UInt64}

end CertRow

/-! ### The parts of the index -/

def flaggedCerts (t : CertsTable) : List Cert := t.indexed CertRow.getKey CertRow.isFlagged

def unflaggedCerts (t : CertsTable) : List Cert := t.indexed CertRow.getKey CertRow.isUnflagged

variable {t : CertsTable} {q : Cert}

/-- The order among the owner certifications of one flag. -/
def spot (q : Cert) : UInt64 ×ₗ UInt64 := toLex (q.2.certifier, q.1)

variable {before rest : List Cert}

/-- A row is no longer flagged. -/
def demote (t : CertsTable) (e : Cert) : CertsTable := t.set e.1 (e.2.withFlag 0)

/-- A row is flagged. -/
def promote (t : CertsTable) (e : Cert) : CertsTable := t.set e.1 (e.2.withFlag 1)

variable {e : Cert}

end Xidata.Identity
