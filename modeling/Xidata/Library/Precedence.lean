import Mathlib.Data.List.Basic

/-!
Histories in which every entry rests on those before it.  A history grows at its end, so that what
an entry rests on is there when it is written.
-/

namespace Xidata.Precedence

variable {α : Type*} {Q : α → List α → Prop} {l early late : List α} {x y : α}

/-- Where an entry stands in a history that has one entry more. -/
theorem concat_eq_append_cons (h : l ++ [x] = early ++ y :: late) :
    (late = [] ∧ l = early ∧ x = y) ∨ ∃ late', late = late' ++ [x] ∧ l = early ++ y :: late' := by
  rcases late.eq_nil_or_concat with rfl | ⟨late', z, rfl⟩
  · obtain ⟨hl, hx⟩ := List.append_inj' h rfl
    exact .inl ⟨rfl, hl, List.singleton_inj.mp hx⟩
  · have h' : l ++ [x] = (early ++ y :: late') ++ [z] := by simpa using h
    obtain ⟨hl, hx⟩ := List.append_inj' h' rfl
    rw [List.singleton_inj.mp hx]
    exact .inr ⟨late', by simp, hl⟩

/-- Every entry has what it rests on before it. -/
def Preceded (Q : α → List α → Prop) (l : List α) : Prop :=
  ∀ ⦃before x after⦄, l = before ++ x :: after → Q x before

theorem preceded_nil : Preceded Q [] := fun before x after h => by
  simp at h

theorem Preceded.concat (h : Preceded Q l) (hx : Q x l) : Preceded Q (l ++ [x]) := by
  intro before y after hl
  rcases concat_eq_append_cons hl with ⟨-, rfl, rfl⟩ | ⟨after', -, hl⟩
  · exact hx
  · exact h hl

end Xidata.Precedence
