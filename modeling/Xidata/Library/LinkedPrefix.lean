import Mathlib.Data.List.Chain
import Mathlib.Data.Nat.Notation
import Mathlib.Tactic.Tauto

/-!
The longest prefix of a list whose elements may follow each other.  It is what a loop takes
that stops at the first element that may not come after the one before it.
-/

namespace LinkedPrefix

variable {α : Type*}

/-! ### The longest prefix -/

/-- The longest prefix `p` of `l` with `P`. -/
structure IsLongest (P : List α → Prop) (p l : List α) : Prop where
  isPrefix : p <+: l
  holds : P p
  longest : ∀ q, q <+: l → P q → q <+: p

theorem IsLongest.unique {P : List α → Prop} {p q l : List α} (hp : IsLongest P p l)
    (hq : IsLongest P q l) : p = q :=
  (hq.longest p hp.isPrefix hp.holds).eq_of_length_le
    (hp.longest q hq.isPrefix hq.holds).length_le

/-- The whole list is taken exactly if it has the property. -/
theorem IsLongest.eq_iff {P : List α → Prop} {p l : List α} (hp : IsLongest P p l) :
    p = l ↔ P l := by
  constructor
  · rintro rfl
    exact hp.holds
  · intro hl
    exact hp.isPrefix.eq_of_length_le (hp.longest l (List.prefix_refl l) hl).length_le

theorem IsLongest.congr {P Q : List α → Prop} {p l : List α} (hp : IsLongest P p l)
    (h : ∀ q, P q ↔ Q q) : IsLongest Q p l where
  isPrefix := hp.isPrefix
  holds := (h p).mp hp.holds
  longest q hpre hq := hp.longest q hpre ((h q).mpr hq)

theorem mem_head?_of_isPrefix {p l : List α} (hpre : p <+: l) {x : α} (hx : x ∈ p.head?) :
    x ∈ l.head? := by
  obtain ⟨rest, rfl⟩ := List.head?_eq_some_iff.mp hx
  obtain ⟨more, rfl⟩ := hpre
  rfl

/-- A prefix that does not take the first element takes none. -/
theorem eq_nil_of_isPrefix {p l : List α} (hpre : p <+: l) (hnot : ∀ x ∈ l.head?, x ∉ p) :
    p = [] := by
  match p with
  | [] => rfl
  | x :: p => exact absurd List.mem_cons_self (hnot x (mem_head?_of_isPrefix hpre rfl))

/-! ### Elements that may follow each other -/

/-- Every element may come after the one before it, and the first one after `prev`. -/
def Linked (r : Option α → α → Prop) : Option α → List α → Prop
  | _, [] => True
  | prev, x :: l => r prev x ∧ Linked r (some x) l

/-- The elements before the first one that may not come where it is. -/
def taken (r : Option α → α → Prop) [∀ prev x, Decidable (r prev x)] :
    Option α → List α → List α
  | _, [] => []
  | prev, x :: l => if r prev x then x :: taken r (some x) l else []

variable {r : Option α → α → Prop} [∀ prev x, Decidable (r prev x)] {prev : Option α}
  {l q : List α} {x : α}

theorem taken_cons_of_pos (h : r prev x) : taken r prev (x :: l) = x :: taken r (some x) l :=
  if_pos h

theorem taken_cons_of_neg (h : ¬ r prev x) : taken r prev (x :: l) = [] := if_neg h

theorem taken_isPrefix (prev : Option α) (l : List α) : taken r prev l <+: l := by
  induction l generalizing prev with
  | nil => exact List.prefix_refl []
  | cons x l ih =>
      by_cases h : r prev x
      · rw [taken_cons_of_pos h]
        exact (List.prefix_cons_inj x).mpr (ih (some x))
      · rw [taken_cons_of_neg h]
        exact List.nil_prefix

theorem linked_taken (prev : Option α) (l : List α) : Linked r prev (taken r prev l) := by
  induction l generalizing prev with
  | nil => exact trivial
  | cons x l ih =>
      by_cases h : r prev x
      · rw [taken_cons_of_pos h]
        exact ⟨h, ih (some x)⟩
      · rw [taken_cons_of_neg h]
        exact trivial

theorem prefix_taken (hpre : q <+: l) (hlinked : Linked r prev q) : q <+: taken r prev l := by
  induction l generalizing prev q with
  | nil =>
      rw [List.prefix_nil.mp hpre]
      exact List.nil_prefix
  | cons x l ih =>
      match q with
      | [] => exact List.nil_prefix
      | y :: q =>
          obtain ⟨rfl, hrest⟩ := List.cons_prefix_cons.mp hpre
          rw [taken_cons_of_pos hlinked.1]
          exact (List.prefix_cons_inj y).mpr (ih hrest hlinked.2)

theorem isLongest_taken (prev : Option α) (l : List α) :
    IsLongest (Linked r prev) (taken r prev l) l where
  isPrefix := taken_isPrefix prev l
  holds := linked_taken prev l
  longest _ := prefix_taken

/-- What may follow each other by a relation and a property of each element. -/
theorem linked_iff_isChain {R : α → α → Prop} {Q : α → Prop} (prev : Option α) (l : List α) :
    Linked (fun prev x => (∀ p ∈ prev, R p x) ∧ Q x) prev l ↔
      (prev.toList ++ l).IsChain R ∧ ∀ x ∈ l, Q x := by
  induction l generalizing prev with
  | nil => cases prev <;> simp [Linked]
  | cons x l ih =>
      rw [Linked, ih]
      cases prev with
      | none => simp [and_left_comm]
      | some p => simp [and_assoc, and_left_comm]

/-- A property of each element but the last. -/
theorem isChain_and_left {R : α → α → Prop} {P : α → Prop} (l : List α) :
    l.IsChain (fun a b => R a b ∧ P a) ↔ l.IsChain R ∧ ∀ a ∈ l.dropLast, P a := by
  induction l with
  | nil => simp
  | cons a l ih =>
      match l with
      | [] => simp
      | b :: l =>
          rw [List.isChain_cons_cons, List.isChain_cons_cons, ih, List.dropLast_cons_cons,
            List.forall_mem_cons]
          tauto

end LinkedPrefix
