import Mathlib.Algebra.BigOperators.Group.Finset.Basic
import Xidata.Launcher.Shapes

/-!
The network when all nodes are on one host: what the options of the launcher lead to.
-/

namespace Xidata.Launcher

/-! ### The names of the nodes -/

section Shares

variable (nonBios perNode rest : ℕ)

/-- How many producers the `j`-th node gets. -/
def share (j : ℕ) : ℕ := if j < nonBios then perNode + (if j < rest then 1 else 0) else 0

variable {nonBios perNode rest}

end Shares

end Xidata.Launcher
