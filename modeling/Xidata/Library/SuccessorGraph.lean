import Mathlib.Data.Finset.Card
import Mathlib.Logic.Relation

/-!
Graphs in which every node has at most one successor.  Such a graph without
cycles can be redirected at any node, as long as the new edge leads to a node
without a successor; and in a finite one every path comes to an end after at
most as many steps as there are nodes, which is what bounds a recursion along
its edges.
-/

namespace SuccessorGraph

variable {α : Type*} {next next' : α → Option α}

def Edge (next : α → Option α) (a b : α) : Prop := next a = some b

def Acyclic (next : α → Option α) : Prop := ∀ a, ¬ Relation.TransGen (Edge next) a a

/-- The path from `a` has at most `n` nodes. -/
def EndsWithin (next : α → Option α) : ℕ → α → Prop
  | 0, _ => False
  | n + 1, a => ∀ b, next a = some b → EndsWithin next n b

/-- An edge to a node without a successor lies on no cycle. -/
theorem Acyclic.redirect (h : Acyclic next)
    (hnew : ∀ a b, next' a = some b → next a = some b ∨ next' b = none) : Acyclic next' := by
  have hpath : ∀ {a b}, Relation.TransGen (Edge next') a b → next' b ≠ none →
      Relation.TransGen (Edge next) a b := by
    intro a b hab
    induction hab with
    | single hedge => exact fun hb => .single ((hnew _ _ hedge).resolve_right hb)
    | tail _ hedge ih =>
        intro hb
        have hmid := ih fun hnone => by
          rw [Edge, hnone] at hedge
          cases hedge
        exact hmid.tail ((hnew _ _ hedge).resolve_right hb)
  intro a hcycle
  obtain ⟨b, hedge, -⟩ := Relation.TransGen.head'_iff.mp hcycle
  exact h a (hpath hcycle fun hnone => by
    rw [Edge, hnone] at hedge
    cases hedge)

/-- The nodes on the way to `a` are not visited again. -/
private theorem endsWithin_of_visited [DecidableEq α] {nodes : Finset α} (h : Acyclic next)
    (hnodes : ∀ a b, next a = some b → b ∈ nodes) {n : ℕ} {visited : Finset α} {a : α}
    (hvisited : visited ⊆ nodes) (ha : a ∈ nodes)
    (hreach : ∀ x ∈ visited, Relation.TransGen (Edge next) x a)
    (hn : nodes.card ≤ n + visited.card) : EndsWithin next n a := by
  have hfresh : a ∉ visited := fun hmem => h a (hreach a hmem)
  have hinsert : insert a visited ⊆ nodes := Finset.insert_subset ha hvisited
  induction n generalizing visited a with
  | zero =>
      have hcard := Finset.card_le_card hinsert
      rw [Finset.card_insert_of_notMem hfresh] at hcard
      omega
  | succ n ih =>
      intro b hedge
      have hreach' : ∀ x ∈ insert a visited, Relation.TransGen (Edge next) x b := fun x hx => by
        rcases Finset.mem_insert.mp hx with rfl | hx
        · exact .single hedge
        · exact (hreach x hx).tail hedge
      have hb := hnodes a b hedge
      have hfresh' : b ∉ insert a visited := fun hmem => h b (hreach' b hmem)
      refine ih hinsert hb hreach' ?_ hfresh' (Finset.insert_subset hb hinsert)
      rw [Finset.card_insert_of_notMem hfresh]
      omega

/-- In a finite graph without cycles every path ends. -/
theorem Acyclic.endsWithin [DecidableEq α] {nodes : Finset α} (h : Acyclic next)
    (hnodes : ∀ a b, next a = some b → b ∈ nodes) {a : α} (ha : a ∈ nodes) {n : ℕ}
    (hn : nodes.card ≤ n) : EndsWithin next n a :=
  endsWithin_of_visited h hnodes (Finset.empty_subset nodes) ha (fun _ hx => by cases hx) hn

end SuccessorGraph
