import Mathlib.Data.List.Basic

/-!
A round over a queue: entries are taken from the front, and each may be put back at the
end.  As long as no more are taken than were queued at the start, those taken are the first
ones of the start, in order and each once; what is left of it still stands in front of what
has been put back.
-/

namespace QueueRound

variable {α : Type*} {start handled queue : List α} {e : α}

/-- A round over `start` has taken `handled`, and `queue` is what it leaves. -/
def Round (start handled queue : List α) : Prop :=
  ∃ rest back, start = handled ++ rest ∧ queue = rest ++ back ∧ back.Sublist handled

theorem Round.begin (start : List α) : Round start [] start :=
  ⟨start, [], rfl, (List.append_nil start).symm, List.Sublist.refl []⟩

theorem Round.isPrefix (h : Round start handled queue) : handled <+: start := by
  obtain ⟨rest, back, hstart, -, -⟩ := h
  exact ⟨rest, hstart.symm⟩

/-- The entry in front is the next one of the start. -/
theorem Round.next (h : Round start handled (e :: queue)) (hlt : handled.length < start.length) :
    ∃ rest back, start = handled ++ e :: rest ∧ queue = rest ++ back ∧ back.Sublist handled := by
  obtain ⟨rest, back, hstart, hqueue, hback⟩ := h
  cases rest with
  | nil =>
      rw [hstart, List.append_nil] at hlt
      exact absurd hlt (Nat.lt_irrefl _)
  | cons e' rest =>
      rw [List.cons_append] at hqueue
      cases hqueue
      exact ⟨rest, back, hstart, rfl, hback⟩

theorem Round.take (h : Round start handled (e :: queue)) (hlt : handled.length < start.length) :
    Round start (handled ++ [e]) queue := by
  obtain ⟨rest, back, hstart, hqueue, hback⟩ := h.next hlt
  refine ⟨rest, back, ?_, hqueue, hback.trans (List.sublist_append_left handled [e])⟩
  rw [hstart, List.append_assoc, List.singleton_append]

theorem Round.putBack (h : Round start handled (e :: queue))
    (hlt : handled.length < start.length) : Round start (handled ++ [e]) (queue ++ [e]) := by
  obtain ⟨rest, back, hstart, hqueue, hback⟩ := h.next hlt
  refine ⟨rest, back ++ [e], ?_, ?_, hback.append (List.Sublist.refl [e])⟩
  · rw [hstart, List.append_assoc, List.singleton_append]
  · rw [hqueue, List.append_assoc]

/-- A queue that runs empty during a round has been taken to its end. -/
theorem Round.length_of_nil (h : Round start handled []) : handled.length = start.length := by
  obtain ⟨rest, back, hstart, hqueue, -⟩ := h
  have hrest : rest = [] := (List.append_eq_nil_iff.mp hqueue.symm).1
  rw [hstart, hrest, List.append_nil]

end QueueRound
