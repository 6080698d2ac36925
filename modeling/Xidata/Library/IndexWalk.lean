import Mathlib.Data.List.Perm.Lattice
import Xidata.Library.OrderedTable

/-!
Walking through a secondary index whose rows are changed on the way.  The index is a strictly
increasing list of places, and its members determine it.  A walk goes from the row that it is
on to the one after it in the index as it is by then; a row that gets another key takes the
walk along to its new place.
-/

namespace OrderedTable

variable {κ ρ ι : Type*} [LinearOrder κ] [LinearOrder ι] {t : OrderedTable κ ρ} {key : ρ → ι}
variable {p : ι ×ₗ κ → Bool} {q : κ × ρ} {l l' before rest : List (κ × ρ)}

/-- The place of a row. -/
def place (key : ρ → ι) (q : κ × ρ) : ι ×ₗ κ := toLex (key q.2, q.1)

/-- The row after a place. -/
def next (t : OrderedTable κ ρ) (key : ρ → ι) (q : κ × ρ) : Option (κ × ρ) :=
  t.firstBy key fun k => place key q < k

/-- The rows of a kind, in the order of the index. -/
def indexed (t : OrderedTable κ ρ) (key : ρ → ι) (kind : ρ → Bool) : List (κ × ρ) :=
  (t.index key).filter fun q => kind q.2

/-- In the order of their places. -/
def Ascending (key : ρ → ι) (l : List (κ × ρ)) : Prop :=
  l.Pairwise fun a b => place key a < place key b

theorem Ascending.nodup (hl : Ascending key l) : l.Nodup := by
  refine hl.imp fun {a b} hlt => ?_
  rintro rfl
  exact lt_irrefl _ hlt

section Change

variable {kind : ρ → Bool} {e : κ × ρ} {r : ρ}

end Change

/-! ### Going through the index -/

end OrderedTable
