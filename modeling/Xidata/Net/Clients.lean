import Mathlib.Data.List.Basic
import Mathlib.Logic.Relation

/-!
The connections of a node, those that it has accepted and those that it has made.  The listener
counts the clients, in all and from the address at hand, before it accepts one more; in between
a counter is kept.
-/

namespace Xidata.Net

variable {A : Type} [DecidableEq A]

/-- An accepted connection has no `peerAddr`.  The address of the other end is gone when that is. -/
structure Session (A : Type) where
  peerAddr : String := ""
  remote : Option A := none
  isOpen : Bool := false
  connecting : Bool := false
  deriving DecidableEq

namespace Session

def accepted (paddr : A) : Session A := { remote := some paddr, isOpen := true, connecting := true }

def isClient (s : Session A) : Bool := s.isOpen && s.peerAddr = ""

def isClientFrom (paddr : A) (s : Session A) : Bool := s.isClient && s.remote = some paddr

def close (s : Session A) : Session A := { s with isOpen := false, connecting := false }

end Session

structure ClientLimits where
  /-- No limit if it is 0. -/
  maxClientCount : ℕ := 25
  maxNodesPerHost : ℕ := 1

structure Sessions (A : Type) where
  connections : List (Session A) := []
  numClients : ℕ := 0
  listening : Bool := true

/-- The address has a host. -/
def hasHost (peerAddr : String) : Bool :=
  match peerAddr.toList.findIdx? (· = ':') with
  | none => false
  | some colon => colon ≠ 0

namespace Sessions

/-- `net_plugin_impl::close`, for a connection between the others. -/
def close (n : Sessions A) (before : List (Session A)) (s : Session A) (after : List (Session A)) :
    Sessions A :=
  { n with
    numClients := if s.isClient then n.numClients - 1 else n.numClients
    connections := before ++ s.close :: after }

/-- The handler of `async_accept` without an error.  A new connection comes between those in
`before` and in `after`; its session may fail to start. -/
def accept (limits : ClientLimits) (n : Sessions A) (paddr : A) (before after : List (Session A))
    (fails : Bool) : Sessions A :=
  let visitors := n.connections.countP Session.isClient
  let fromAddr := n.connections.countP (Session.isClientFrom paddr)
  let n := { n with numClients := visitors }
  if fromAddr < limits.maxNodesPerHost ∧
      (limits.maxClientCount = 0 ∨ n.numClients < limits.maxClientCount) then
    let n := { n with numClients := n.numClients + 1 }
    if fails then n.close before (Session.accepted paddr) after
    else { n with connections := before ++ Session.accepted paddr :: after }
  else n

/-- `net_plugin::connect`; the connection is taken out again if there is no host. -/
def connect (n : Sessions A) (host : String) (before after : List (Session A)) : Sessions A :=
  if n.connections.any fun s => s.peerAddr = host then n
  else if hasHost host then { n with connections := before ++ { peerAddr := host } :: after }
  else n

/-- One connection in the loop of the connection monitor. -/
def monitor (n : Sessions A) (before : List (Session A)) (s : Session A)
    (after : List (Session A)) : Sessions A :=
  if ¬ s.isOpen ∧ ¬ s.connecting ∧ s.peerAddr = "" then { n with connections := before ++ after }
  else n

end Sessions

/-- The connections are kept in the order of their addresses in memory. -/
inductive SessionStep (limits : ClientLimits) : Sessions A → Sessions A → Prop
  | accept {n : Sessions A} (paddr : A) {before after : List (Session A)} (fails : Bool)
      (h : n.connections = before ++ after) (hlistening : n.listening) :
      SessionStep limits n (n.accept limits paddr before after fails)
  | acceptFails {n : Sessions A} (goesOn : Bool) (hlistening : n.listening) :
      SessionStep limits n { n with listening := goesOn }
  | connect {n : Sessions A} (host : String) {before after : List (Session A)}
      (h : n.connections = before ++ after) :
      SessionStep limits n (n.connect host before after)
  /-- A connection is dialed, and its socket opened. -/
  | dial {n : Sessions A} {before after : List (Session A)} {s : Session A}
      (h : n.connections = before ++ s :: after) (hhost : hasHost s.peerAddr) :
      SessionStep limits n
        { n with connections := before ++ { s with isOpen := true, connecting := true } :: after }
  /-- A message has come, or the other end has changed. -/
  | heard {n : Sessions A} {before after : List (Session A)} {s : Session A}
      (h : n.connections = before ++ s :: after) (connecting : Bool) :
      SessionStep limits n { n with connections := before ++ { s with connecting } :: after }
  | lost {n : Sessions A} {before after : List (Session A)} {s : Session A}
      (h : n.connections = before ++ s :: after) :
      SessionStep limits n { n with connections := before ++ { s with remote := none } :: after }
  | close {n : Sessions A} {before after : List (Session A)} {s : Session A}
      (h : n.connections = before ++ s :: after) :
      SessionStep limits n (n.close before s after)
  | disconnect {n : Sessions A} (host : String) {before after : List (Session A)} {s : Session A}
      (h : n.connections = before ++ s :: after) (hhost : s.peerAddr = host) :
      SessionStep limits n { n.close before s after with connections := before ++ after }
  | monitor {n : Sessions A} {before after : List (Session A)} {s : Session A}
      (h : n.connections = before ++ s :: after) :
      SessionStep limits n (n.monitor before s after)

namespace Sessions

/-- The counter is right, and no limit is exceeded. -/
structure WithinLimits (limits : ClientLimits) (n : Sessions A) : Prop where
  numClients : n.numClients = n.connections.countP Session.isClient
  maxClientCount : limits.maxClientCount ≠ 0 →
    n.connections.countP Session.isClient ≤ limits.maxClientCount
  maxNodesPerHost : ∀ paddr,
    n.connections.countP (Session.isClientFrom paddr) ≤ limits.maxNodesPerHost

variable {limits : ClientLimits} {n n' : Sessions A} {before after : List (Session A)}
  {s s' : Session A}

omit [DecidableEq A] in
/-- One connection between the others. -/
theorem countP_between (p : Session A → Bool) (before after : List (Session A)) (s : Session A) :
    (before ++ s :: after).countP p = (before ++ after).countP p + if p s then 1 else 0 := by
  rw [List.countP_append, List.countP_append, List.countP_cons, ← Nat.add_assoc]

omit [DecidableEq A] in
theorem countP_between_le {p : Session A → Bool} (h : p s' → p s) :
    (before ++ s' :: after).countP p ≤ (before ++ s :: after).countP p := by
  rw [countP_between, countP_between]
  refine Nat.add_le_add_left ?_ _
  by_cases hs' : p s'
  · exact Nat.le_of_eq (by rw [if_pos hs', if_pos (h hs')])
  · rw [if_neg hs']
    exact Nat.zero_le _

/-- A connection changes, and is no client that it was not. -/
theorem WithinLimits.change (h : n.WithinLimits limits) (hn : n.connections = before ++ s :: after)
    (hclient : s'.isClient = s.isClient)
    (hfrom : ∀ paddr, s'.isClientFrom paddr → s.isClientFrom paddr) :
    WithinLimits limits { n with connections := before ++ s' :: after } := by
  obtain ⟨hnum, hmax, hhost⟩ := h
  rw [hn] at hnum hmax hhost
  refine ⟨?_, fun hne => ?_, fun paddr => ?_⟩
  · rw [hnum, countP_between, countP_between, hclient]
  · exact Nat.le_trans (countP_between_le fun hs => hclient ▸ hs) (hmax hne)
  · exact Nat.le_trans (countP_between_le (hfrom paddr)) (hhost paddr)

theorem WithinLimits.close (h : n.WithinLimits limits) (hn : n.connections = before ++ s :: after) :
    (n.close before s after).WithinLimits limits := by
  obtain ⟨hnum, hmax, hhost⟩ := h
  rw [hn] at hnum hmax hhost
  refine ⟨?_, fun hne => ?_, fun paddr => ?_⟩
  · rw [countP_between] at hnum
    have hclosed : s.close.isClient = false := rfl
    change (if s.isClient then n.numClients - 1 else n.numClients) = _
    rw [Sessions.close, countP_between, hclosed, hnum]
    by_cases hs : s.isClient
    · rw [if_pos hs, if_pos hs]
      rfl
    · rw [if_neg hs, if_neg hs]
      rfl
  · have hgone : s.close.isClient → s.isClient := nofun
    exact Nat.le_trans (countP_between_le hgone) (hmax hne)
  · have hgone : s.close.isClientFrom paddr → s.isClientFrom paddr := nofun
    exact Nat.le_trans (countP_between_le hgone) (hhost paddr)

/-- A connection goes or comes that is no client. -/
theorem WithinLimits.of_countP {l : List (Session A)} (h : n.WithinLimits limits)
    (hcount : ∀ p : Session A → Bool, (p s → s.isClient) → l.countP p = n.connections.countP p) :
    WithinLimits limits { n with connections := l } := by
  have hfrom : ∀ paddr, s.isClientFrom paddr → s.isClient := fun paddr hs =>
    (Bool.and_eq_true_iff.mp hs).1
  obtain ⟨hnum, hmax, hhost⟩ := h
  refine ⟨?_, fun hne => ?_, fun paddr => ?_⟩
  · rw [hnum, hcount _ id]
  · rw [hcount _ id]
    exact hmax hne
  · rw [hcount _ (hfrom paddr)]
    exact hhost paddr

theorem WithinLimits.erase (h : n.WithinLimits limits) (hn : n.connections = before ++ s :: after)
    (hclient : s.isClient = false) :
    WithinLimits limits { n with connections := before ++ after } :=
  h.of_countP (s := s) fun p hp => by
    rw [hn, countP_between, if_neg fun hs => by simp [hp hs] at hclient]
    rfl

theorem WithinLimits.insert (h : n.WithinLimits limits) (hn : n.connections = before ++ after)
    (hclient : s.isClient = false) :
    WithinLimits limits { n with connections := before ++ s :: after } :=
  h.of_countP (s := s) fun p hp => by
    rw [hn, countP_between, if_neg fun hs => by simp [hp hs] at hclient]
    rfl

/-- The count of the listener keeps the limits, and sets the counter. -/
theorem WithinLimits.accept (h : n.WithinLimits limits) (hn : n.connections = before ++ after)
    (paddr : A) (fails : Bool) :
    (n.accept limits paddr before after fails).WithinLimits limits := by
  obtain ⟨hnum, hmax, hhost⟩ := h
  unfold Sessions.accept
  dsimp only
  split
  · next hroom =>
      obtain ⟨hfrom, htotal⟩ := hroom
      have hentered : WithinLimits limits
          { n with
            numClients := n.connections.countP Session.isClient + 1
            connections := before ++ Session.accepted paddr :: after } := by
        have hclient : (Session.accepted paddr).isClient = true := rfl
        rw [hn] at hfrom htotal hmax hhost ⊢
        refine ⟨?_, fun hne => ?_, fun paddr' => ?_⟩
        · rw [countP_between, if_pos hclient]
        · rw [countP_between, if_pos hclient]
          exact htotal.resolve_left hne
        · rw [countP_between]
          by_cases hsame : paddr' = paddr
          · subst hsame
            split
            · exact hfrom
            · exact Nat.le_of_lt hfrom
          · rw [if_neg]
            · exact hhost paddr'
            · intro hother
              have heq := of_decide_eq_true (Bool.and_eq_true_iff.mp hother).2
              exact hsame (Option.some.inj heq).symm
      split
      · exact hentered.close rfl
      · exact hentered
  · exact ⟨rfl, hmax, hhost⟩

theorem WithinLimits.step (h : n.WithinLimits limits) (hstep : SessionStep limits n n') :
    n'.WithinLimits limits := by
  cases hstep with
  | accept paddr fails hn hlistening => exact h.accept hn paddr fails
  | acceptFails goesOn hlistening => exact ⟨h.numClients, h.maxClientCount, h.maxNodesPerHost⟩
  | connect host hn =>
      unfold Sessions.connect
      split
      · exact h
      · split
        · exact h.insert hn rfl
        · exact h
  | @dial before after s hn hhost =>
      have hne : s.peerAddr ≠ "" := fun hempty => by
        rw [hempty] at hhost
        exact absurd hhost (by decide)
      refine h.change hn ?_ fun paddr hfrom => ?_
      · simp [Session.isClient, hne]
      · simp [Session.isClientFrom, Session.isClient, hne] at hfrom
  | heard hn connecting => exact h.change hn rfl fun _ => id
  | lost hn =>
      refine h.change hn rfl fun paddr hfrom => ?_
      simp [Session.isClientFrom] at hfrom
  | close hn => exact h.close hn
  | disconnect host hn hhost => exact (h.close hn).erase rfl rfl
  | monitor hn =>
      unfold Sessions.monitor
      split
      · next hclosed => exact h.erase hn (by simp [Session.isClient, hclosed.1])
      · exact h

/-- The counter always agrees with the connections, and there are never more clients than the
limits allow, in all and from one address. -/
theorem clients_within_limits (h : Relation.ReflTransGen (SessionStep limits) {} n) :
    n.WithinLimits limits := by
  induction h with
  | refl => exact ⟨rfl, fun _ => Nat.zero_le _, fun _ => Nat.zero_le _⟩
  | tail _ hstep ih => exact ih.step hstep

/-- The second client from an address is turned away. -/
theorem clients_within_limits_twice : ∃ n : Sessions ℕ,
    Relation.ReflTransGen (SessionStep {}) {} n ∧ n.connections = [Session.accepted 7] ∧
      n.connections.countP (Session.isClientFrom 7) ≤ 1 := by
  have h₀ : Relation.ReflTransGen (SessionStep {}) ({} : Sessions ℕ) {} := .refl
  have h₁ := h₀.tail (.accept 7 false (show _ = [] ++ [] from rfl) rfl)
  have h₂ := h₁.tail (.accept 7 false (show _ = [] ++ [_] from rfl) rfl)
  exact ⟨_, h₂, by decide, (clients_within_limits h₂).maxNodesPerHost 7⟩

end Sessions

end Xidata.Net
