import Xidata.NodeSvr.Replies

/-!
What one body does to other requests.  The listener for the end of a body parses it and reads
its properties, and an exception there ends the process: then no request is taken and nothing
that is in flight is answered.  As long as every body that an action is made of can be read,
the server takes every request, and each request to which a reply is due has its own or can
still get it.
-/

namespace Xidata.NodeSvr

namespace Gateway

variable {rt : Runtime} {s s' : Gateway} {k : ℕ} {r : Request} {ev : GatewayEvent}

/-- The server takes requests; to each request a reply is due to, one was sent or can still
be; and every reply is the request's own. -/
structure KeepsServing (rt : Runtime) (s : Gateway) : Prop where
  accepts : ∀ method pathname, ∃ s', s.step rt (.request method pathname) = .ok s'
  answers : ∀ (k : ℕ) (r : Request), s.requests[k]? = some r → r.due = true →
    ∃ es, (Rollback.run (Gateway.step rt) s es).repliesTo k = 1
  own : ∀ reply ∈ s.replies, ∃ r, s.requests[reply.res]? = some r ∧ reply.Answers rt r

/-! ### The process -/

theorem step_of_not_alive (h : s.alive = false) : s.step rt ev = .error () := by
  unfold Gateway.step
  rw [h]
  rfl

theorem KeepsServing.alive (h : KeepsServing rt s) : s.alive = true := by
  obtain ⟨s', hs'⟩ := h.accepts "POST" "/"
  by_contra hdead
  rw [step_of_not_alive (Bool.not_eq_true _ ▸ hdead)] at hs'
  cases hs'

end Gateway

end Xidata.NodeSvr
