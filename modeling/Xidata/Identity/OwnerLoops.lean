import Xidata.Identity.Hearing
import Xidata.Identity.OwnerWalk

/-!
What the two loops return.  Over rows that they leave as they are they hear one account after
another; the first row that the updating mode changes takes the iterator away.
-/

namespace Xidata.Identity

open Eosiolib (AccountName)

variable {s : State} {activeProducers : List AccountName} {updating : Bool} {ident : IdentityName}
variable {t : CertsTable} {found : AccountName} {q : Cert} {m : ℕ}

namespace FirstStale

variable {j : Judge} {e : Cert} {before rest : List Cert}

end FirstStale

/-! ### The others -/

end Xidata.Identity
