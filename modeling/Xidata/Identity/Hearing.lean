import Xidata.Identity.Contract

/-!
Hearing one account after another.  The first one stands unless another one contradicts it; an
account that is zero is nobody as long as nobody was heard, and contradicts whoever was.
-/

namespace Xidata.Identity

open Eosiolib (AccountName)

/-- One account is heard: the first one, or the same as before. -/
def agree (found account : AccountName) : Option AccountName :=
  if found = 0 ∨ found = account then some account else none

/-- There is someone named, and it is always the same account. -/
def AllName (l : List AccountName) (a : AccountName) : Prop := l ≠ [] ∧ ∀ b ∈ l, b = a

def verdict (l : List AccountName) : AccountName := (l.foldlM agree 0).getD 0

variable {l l' : List AccountName} {a found : AccountName}

theorem AllName.subset (h : AllName l a) (hne : l' ≠ []) (hsub : l' ⊆ l) : AllName l' a :=
  ⟨hne, fun b hb => h.2 b (hsub hb)⟩

theorem AllName.eq (h : AllName l a) {b : AccountName} (h' : AllName l b) : a = b := by
  obtain ⟨c, hc⟩ := List.exists_mem_of_ne_nil l h.1
  rw [← h.2 c hc, h'.2 c hc]

end Xidata.Identity
