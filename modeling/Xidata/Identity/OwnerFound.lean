import Xidata.Identity.OwnerLoops

/-!
What the search for the owner finds.  It reads the flagged certifications and then, if nobody
is named, the others; in the updating mode it hears those that its walk comes to, and then the
first of the others.
-/

namespace Xidata.Identity

open Eosiolib (AccountName)

/-- With enough passes, the loops return this. -/
def Returns {α : Type*} (f : ℕ → Option α) (a : α) : Prop := ∃ n, ∀ m, f (n + m) = some a

theorem Returns.unique {α : Type*} {f : ℕ → Option α} {a b : α} (ha : Returns f a)
    (hb : Returns f b) : a = b := by
  obtain ⟨n, ha⟩ := ha
  obtain ⟨n', hb⟩ := hb
  have heq := (ha n').symm.trans ((congrArg f (Nat.add_comm n n')).trans (hb n))
  exact Option.some.inj heq

variable {s : State} {activeProducers : List AccountName} {updating : Bool} {ident : IdentityName}
variable {t t' : CertsTable} {found a : AccountName} {j : Judge}

/-! ### What the loops return -/

namespace FirstStale

variable {before rest : List Cert} {e : Cert} {account : AccountName}

end FirstStale

end Xidata.Identity
