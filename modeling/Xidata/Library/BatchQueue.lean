import Mathlib.Data.List.Basic
import Mathlib.Data.List.Infix
import Mathlib.Data.Sigma.Basic
import Mathlib.Logic.Function.Basic

/-!
Queues that are handed over in batches.  What enters waits in the queue of its kind; all
queues are taken over at once, and a batch is worked off, the lower kinds first, before the
next one is taken.  Every kind leaves in the order in which it entered, and nothing leaves
before what entered earlier and is of a lower kind.
-/

namespace BatchQueue

variable {κ : Type*} {ε : κ → Type*}

section OfKind

variable [DecidableEq κ]

/-- The entries of one kind, in their order. -/
def ofKind (k : κ) (l : List (Sigma ε)) : List (ε k) :=
  l.filterMap fun i => if h : i.1 = k then some (h ▸ i.2) else none

@[simp] theorem ofKind_nil (k : κ) : ofKind k ([] : List (Sigma ε)) = [] := rfl

@[simp] theorem ofKind_append (k : κ) (l l' : List (Sigma ε)) :
    ofKind k (l ++ l') = ofKind k l ++ ofKind k l' := List.filterMap_append

@[simp] theorem ofKind_cons_self (k : κ) (e : ε k) (l : List (Sigma ε)) :
    ofKind k (⟨k, e⟩ :: l) = e :: ofKind k l := by
  simp [ofKind]

theorem ofKind_cons_of_ne {k k' : κ} (h : k' ≠ k) (e : ε k') (l : List (Sigma ε)) :
    ofKind k (⟨k', e⟩ :: l) = ofKind k l := by
  simp [ofKind, h]

theorem ofKind_isPrefix {l l' : List (Sigma ε)} (k : κ) (h : l <+: l') :
    ofKind k l <+: ofKind k l' := h.filterMap _

theorem mem_ofKind {k : κ} {e : ε k} {l : List (Sigma ε)} : e ∈ ofKind k l ↔ ⟨k, e⟩ ∈ l := by
  rw [ofKind, List.mem_filterMap]
  constructor
  · rintro ⟨⟨k', e'⟩, hmem, he⟩
    split at he
    · next heq =>
        change k' = k at heq
        subst heq
        cases he
        exact hmem
    · cases he
  · intro hmem
    exact ⟨⟨k, e⟩, hmem, dif_pos rfl⟩

end OfKind

/-- What waits and what has been taken over, with all that ever entered and all that left. -/
structure Belt (ε : κ → Type*) where
  waiting : (k : κ) → List (ε k)
  batch : (k : κ) → List (ε k)
  entered : List (Sigma ε)
  left : List (Sigma ε)

variable [DecidableEq κ]

/-- What can happen to the queues. -/
inductive Move [LT κ] (q : Belt ε) : Belt ε → Prop
  | stay : Move q q
  | enter (k : κ) (e : ε k) :
      Move q { q with
        waiting := Function.update q.waiting k (q.waiting k ++ [e])
        entered := q.entered ++ [⟨k, e⟩] }
  | take (h : ∀ k, q.batch k = []) : Move q { q with waiting := fun _ => [], batch := q.waiting }
  | leave (k : κ) (e : ε k) (rest : List (ε k)) (h : q.batch k = e :: rest)
      (hlower : ∀ j, j < k → q.batch j = []) :
      Move q { q with
        batch := Function.update q.batch k rest
        left := q.left ++ [⟨k, e⟩] }

/-- What has been taken over entered before what still waits. -/
def Split (q : Belt ε) : Prop :=
  ∃ a b, q.entered = a ++ b ∧
    ∀ k, ofKind k a = ofKind k q.left ++ q.batch k ∧ ofKind k b = q.waiting k

/-- An entry that has left, and of its kind as many before it as when it entered: what was of
a lower kind and in front of it then has left before it. -/
def InTurn [LT κ] (entered left : List (Sigma ε)) : Prop :=
  ∀ (j k : κ) (e : ε k) (l₁ l₂ p₁ p₂ : List (Sigma ε)), j < k →
    left = l₁ ++ ⟨k, e⟩ :: l₂ → entered = p₁ ++ ⟨k, e⟩ :: p₂ →
    (ofKind k l₁).length = (ofKind k p₁).length → ofKind j p₁ <+: ofKind j l₁

structure Orderly [LT κ] (q : Belt ε) : Prop where
  split : Split q
  inTurn : InTurn q.entered q.left

def Belt.empty : Belt ε := ⟨fun _ => [], fun _ => [], [], []⟩

theorem orderly_empty [LT κ] : Orderly (Belt.empty : Belt ε) where
  split := ⟨[], [], rfl, fun _ => ⟨rfl, rfl⟩⟩
  inTurn := fun _ _ _ l₁ _ _ _ _ hleft => by
    exact absurd (congrArg List.length hleft) (by simp [Belt.empty])

variable {q q' : Belt ε}

/-- Of each kind, what has left, what is in the batch and what waits make up what entered. -/
theorem Split.fifo (h : Split q) (k : κ) :
    ofKind k q.entered = ofKind k q.left ++ q.batch k ++ q.waiting k := by
  obtain ⟨a, b, hab, hk⟩ := h
  rw [hab, ofKind_append, (hk k).1, (hk k).2]

theorem Split.move [LT κ] (h : Split q) (hmove : Move q q') : Split q' := by
  obtain ⟨a, b, hab, hk⟩ := h
  cases hmove with
  | stay => exact ⟨a, b, hab, hk⟩
  | enter k e =>
      refine ⟨a, b ++ [⟨k, e⟩], by simp [hab], fun k' => ⟨(hk k').1, ?_⟩⟩
      by_cases hkk : k' = k
      · subst hkk
        simp [(hk k').2]
      · rw [ofKind_append, ofKind_cons_of_ne (Ne.symm hkk), (hk k').2]
        simp [hkk]
  | take hbatch =>
      refine ⟨q.entered, [], (List.append_nil _).symm, fun k => ⟨?_, rfl⟩⟩
      change ofKind k q.entered = ofKind k q.left ++ q.waiting k
      rw [hab, ofKind_append, (hk k).1, (hk k).2, hbatch k, List.append_nil]
  | leave k e rest hbatch hlower =>
      refine ⟨a, b, hab, fun k' => ⟨?_, (hk k').2⟩⟩
      by_cases hkk : k' = k
      · subst hkk
        simp [(hk k').1, hbatch]
      · rw [ofKind_append, ofKind_cons_of_ne (Ne.symm hkk), (hk k').1]
        simp [hkk]

/-- What entered last has not left. -/
theorem Split.length_lt (h : Split q) {k : κ} {e : ε k} {l₁ l₂ : List (Sigma ε)}
    (hleft : q.left = l₁ ++ ⟨k, e⟩ :: l₂) : (ofKind k l₁).length < (ofKind k q.entered).length := by
  rw [h.fifo k, hleft]
  simp

theorem Orderly.move [LT κ] (h : Orderly q) (hmove : Move q q') : Orderly q' := by
  refine ⟨h.split.move hmove, ?_⟩
  cases hmove with
  | stay => exact h.inTurn
  | take hbatch => exact h.inTurn
  | enter k₀ e₀ =>
      intro j k e l₁ l₂ p₁ p₂ hjk hleft hentered hlen
      change q.entered ++ [⟨k₀, e₀⟩] = p₁ ++ ⟨k, e⟩ :: p₂ at hentered
      rcases List.eq_nil_or_concat p₂ with rfl | ⟨p₂, x, rfl⟩
      · obtain ⟨rfl, -⟩ := List.append_inj' hentered rfl
        exact absurd hlen (h.split.length_lt hleft).ne
      · rw [List.concat_eq_append, ← List.cons_append, ← List.append_assoc] at hentered
        exact h.inTurn j k e l₁ l₂ p₁ p₂ hjk hleft (List.append_inj' hentered rfl).1 hlen
  | leave k₀ e₀ rest hbatch hlower =>
      intro j k e l₁ l₂ p₁ p₂ hjk hleft hentered hlen
      change q.left ++ [⟨k₀, e₀⟩] = l₁ ++ ⟨k, e⟩ :: l₂ at hleft
      rcases List.eq_nil_or_concat l₂ with rfl | ⟨l₂, x, rfl⟩
      · obtain ⟨rfl, he⟩ := List.append_inj' hleft rfl
        cases he
        -- The entry that leaves is in the batch, so it entered before anything that waits.
        obtain ⟨a, b, hab, hk⟩ := h.split
        have hp : p₁ <+: a := by
          have hp₁ : p₁ <+: q.entered := ⟨_, hentered.symm⟩
          refine (List.prefix_or_prefix_of_prefix hp₁ ⟨b, hab.symm⟩).resolve_right fun ha => ?_
          have hle := (ofKind_isPrefix k₀ ha).length_le
          rw [← hlen, (hk k₀).1, hbatch, List.length_append, List.length_cons] at hle
          omega
        have hj := (hk j).1
        rw [hlower j hjk, List.append_nil] at hj
        exact hj ▸ ofKind_isPrefix j hp
      · rw [List.concat_eq_append, ← List.cons_append, ← List.append_assoc] at hleft
        exact h.inTurn j k e l₁ l₂ p₁ p₂ hjk (List.append_inj' hleft rfl).1 hentered hlen

end BatchQueue
