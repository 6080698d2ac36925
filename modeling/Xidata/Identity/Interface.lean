import Xidata.Identity.Contract
import Xidata.Library.IndexWalk

/-!
The interface to the identities, for the contract itself and for others.  The owner of an
identity is whom the certifications name that are flagged as trusted, or else the others; the
account has to claim the identity, and the certifier has to be trusted now.  The contract
itself changes the flags that are out of date while it walks through the index, of which the
flag is part, and goes on from where the row has moved to.
-/

namespace Xidata.Identity

open Eosiolib (AccountName)

section Loops

variable (s : State) (activeProducers : List AccountName) (updating : Bool) (ident : IdentityName)

end Loops

end Xidata.Identity
