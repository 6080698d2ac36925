import Mathlib.Data.List.Basic
import Mathlib.Logic.Function.Basic
import Mathlib.Logic.Relation

/-!
Passing on what is new.  A node sends what it passes on to all its neighbours but those from
which it came.  A link keeps the order of what is on it; it lapses when it loses messages, or
gets others than those that are passed on.  To the end of a link that has not lapsed comes all
that the node at its start has passed on, and what must come after something else comes after
it.
-/

/-- The nodes, and what is on its way from one to another, the oldest first. -/
structure FloodNet (ν σ μ : Type*) where
  node : ν → σ
  link : ν → ν → List μ := fun _ _ => []
  lapsed : ν → ν → Bool

namespace FloodNet

variable {ν σ μ : Type*} [DecidableEq ν]

/-! ### Events -/

/-- The node `b` comes into the state `s` and sends `out`; `rest` is left of what was on the
links. -/
def move (net : FloodNet ν σ μ) (b : ν) (s : σ) (rest : ν → ν → List μ) (out : ν → List μ) :
    FloodNet ν σ μ :=
  { net with
    node := Function.update net.node b s
    link := fun x y => rest x y ++ if x = b then out y else [] }

def act (net : FloodNet ν σ μ) (b : ν) (s : σ) (out : ν → List μ) : FloodNet ν σ μ :=
  net.move b s net.link out

/-- `b` takes the first message from its link with `a`. -/
def receive (net : FloodNet ν σ μ) (a b : ν) (s : σ) (out : ν → List μ) : FloodNet ν σ μ :=
  net.move b s (fun x y => if x = a ∧ y = b then (net.link x y).tail else net.link x y) out

/-- The link from `b` to `c` lapses, with `l` on it from now on. -/
def lapse (net : FloodNet ν σ μ) (b c : ν) (l : List μ) : FloodNet ν σ μ :=
  { net with
    link := fun x y => if x = b ∧ y = c then l else net.link x y
    lapsed := fun x y => net.lapsed x y || (x = b ∧ y = c) }

/-! ### What is observed of a node -/

structure View (ν σ μ : Type*) where
  /-- It has come to the node. -/
  Knows : σ → μ → Prop
  Passed : σ → μ → Prop
  /-- It has come from this neighbour, and has not been passed on. -/
  Origin : σ → μ → ν → Prop
  /-- The node sends to this neighbour. -/
  Current : σ → ν → Prop
  /-- What must come before. -/
  before : μ → Option μ

namespace View

variable (v : View ν σ μ)

/-- A node goes from `s` to `s'` and sends `out`, after it has got something or nothing. -/
structure Passes (s s' : σ) (got : Option (ν × μ)) (out : ν → List μ) : Prop where
  knows : ∀ m, v.Knows s m → v.Knows s' m
  gets : ∀ a m, got = some (a, m) → v.Knows s' m
  origin : ∀ m a, v.Origin s' m a → v.Origin s m a ∨ got = some (a, m)
  sends : ∀ c, ∀ m ∈ out c, v.Knows s' m
  passed : ∀ m, v.Passed s' m →
    v.Passed s m ∨ ∀ c, v.Current s c → v.Origin s m c ∨ m ∈ out c
  before : ∀ c, ∀ m ∈ out c, ∀ p, v.before m = some p → v.Passed s p

/-- What holds in every state of the network. -/
structure Spreads (net : FloodNet ν σ μ) : Prop where
  sent : ∀ a c, ∀ m ∈ net.link a c, v.Knows (net.node a) m
  origin : ∀ a m c, v.Origin (net.node a) m c → v.Knows (net.node c) m
  current : ∀ a c, net.lapsed a c = false → v.Current (net.node a) c
  reaches : ∀ a c m, net.lapsed a c = false → v.Passed (net.node a) m →
    v.Knows (net.node c) m ∨ m ∈ net.link a c
  inOrder : ∀ a c first m rest, net.lapsed a c = false → net.link a c = first ++ m :: rest →
    ∀ p, v.before m = some p → v.Knows (net.node c) p ∨ p ∈ first

variable {v} {net : FloodNet ν σ μ} {b : ν} {s : σ} {out : ν → List μ}

omit [DecidableEq ν] in
/-- Something before a node passes things on. -/
theorem Passes.trans {s₀ s₁ : σ} (h₀ : v.Passes s₀ s₁ none fun _ => [])
    (h₁ : v.Passes s₁ s none out) (hpassed : ∀ m, v.Passed s₁ m → v.Passed s₀ m)
    (hcurrent : ∀ c, v.Current s₀ c → v.Current s₁ c) : v.Passes s₀ s none out where
  knows m hm := h₁.knows m (h₀.knows m hm)
  gets _ _ hgot := by cases hgot
  origin m a hm :=
    (h₁.origin m a hm).elim (h₀.origin m a) fun hgot => by cases hgot
  sends := h₁.sends
  passed m hm := (h₁.passed m hm).imp (hpassed m) fun hnew c hc =>
    (hnew c (hcurrent c hc)).imp_left fun horigin =>
      (h₀.origin m c horigin).resolve_right nofun
  before c m hm p hp := hpassed p (h₁.before c m hm p hp)

/-- The other nodes stay as they are, and this one knows no less. -/
theorem knows_update (hknows : ∀ m, v.Knows (net.node b) m → v.Knows s m) {x : ν} {m : μ}
    (h : v.Knows (net.node x) m) : v.Knows (Function.update net.node b s x) m := by
  by_cases hx : x = b
  · subst hx
    rw [Function.update_self]
    exact hknows m h
  · rwa [Function.update_of_ne hx]

/-! ### One event -/

/-- What is left on the links when a node has taken at most one message, which it knows then. -/
def Taken (v : View ν σ μ) (net : FloodNet ν σ μ) (b : ν) (s : σ) (rest : ν → ν → List μ) : Prop :=
  ∀ x y, rest x y = net.link x y ∨ y = b ∧ ∃ m, net.link x y = m :: rest x y ∧ v.Knows s m

variable {rest : ν → ν → List μ}

omit [DecidableEq ν] in
theorem Taken.mem_link (ht : v.Taken net b s rest) {x y : ν} {m : μ} (hm : m ∈ rest x y) :
    m ∈ net.link x y := by
  obtain heq | ⟨-, m', heq, -⟩ := ht x y
  · rwa [← heq]
  · rw [heq]
    exact List.mem_cons_of_mem _ hm

/-- What was on a link is there, or the node at its end has got it. -/
theorem Taken.knows_or_mem (ht : v.Taken net b s rest) {x y : ν} {m : μ} (hm : m ∈ net.link x y) :
    v.Knows (Function.update net.node b s y) m ∨ m ∈ rest x y := by
  obtain heq | ⟨rfl, m', heq, hknows⟩ := ht x y
  · exact .inr (heq ▸ hm)
  · rw [heq] at hm
    obtain rfl | hm := List.mem_cons.mp hm
    · exact .inl (by rwa [Function.update_self])
    · exact .inr hm

theorem Spreads.reaches_rest (h : v.Spreads net) (ht : v.Taken net b s rest)
    (hknows : ∀ m, v.Knows (net.node b) m → v.Knows s m) {a c : ν} {m : μ}
    (hlapsed : net.lapsed a c = false) (hpassed : v.Passed (net.node a) m) :
    v.Knows (Function.update net.node b s c) m ∨ m ∈ rest a c := by
  obtain hknown | hmem := h.reaches a c m hlapsed hpassed
  · exact .inl (knows_update hknows hknown)
  · exact ht.knows_or_mem hmem

theorem Spreads.inOrder_rest (h : v.Spreads net) (ht : v.Taken net b s rest)
    (hknows : ∀ m, v.Knows (net.node b) m → v.Knows s m) {a c : ν} {first after : List μ} {m p : μ}
    (hlapsed : net.lapsed a c = false) (hrest : rest a c = first ++ m :: after)
    (hp : v.before m = some p) :
    v.Knows (Function.update net.node b s c) p ∨ p ∈ first := by
  obtain heq | ⟨rfl, m', heq, hm'⟩ := ht a c
  · rw [heq] at hrest
    exact (h.inOrder a c first m after hlapsed hrest p hp).imp_left (knows_update hknows)
  · rw [hrest, ← List.cons_append] at heq
    obtain hknown | hmem := h.inOrder a c _ m after hlapsed heq p hp
    · exact .inl (knows_update hknows hknown)
    · obtain rfl | hmem := List.mem_cons.mp hmem
      · exact .inl (by rwa [Function.update_self])
      · exact .inr hmem

/-- What is sent now has been passed on after what must come before it. -/
theorem Spreads.knows_before_sent {got : Option (ν × μ)} (h : v.Spreads net)
    (ht : v.Taken net b s rest) (hpasses : v.Passes (net.node b) s got out) {a c : ν} {m p : μ}
    (hlapsed : net.lapsed a c = false) (hm : m ∈ if a = b then out c else [])
    (hp : v.before m = some p) :
    v.Knows (Function.update net.node b s c) p ∨ p ∈ rest a c := by
  split at hm
  · next ha =>
      subst ha
      exact h.reaches_rest ht hpasses.knows hlapsed (hpasses.before c m hm p hp)
  · cases hm

/-- One event at a node, where at most one message is taken from a link to it. -/
theorem Spreads.move {got : Option (ν × μ)} (h : v.Spreads net)
    (hpasses : v.Passes (net.node b) s got out)
    (hcurrent : ∀ c, net.lapsed b c = false → v.Current (net.node b) c → v.Current s c)
    (ht : v.Taken net b s rest) (hgot : ∀ a m, got = some (a, m) → m ∈ net.link a b) :
    v.Spreads (net.move b s rest out) := by
  have hkeep := fun {x m} => knows_update (x := x) (m := m) hpasses.knows
  constructor
  · intro a c m hm
    change m ∈ rest a c ++ (if a = b then out c else []) at hm
    change v.Knows (Function.update net.node b s a) m
    obtain hold | hnew := List.mem_append.mp hm
    · exact hkeep (h.sent a c m (ht.mem_link hold))
    · by_cases ha : a = b
      · rw [if_pos ha] at hnew
        subst ha
        rw [Function.update_self]
        exact hpasses.sends c m hnew
      · rw [if_neg ha] at hnew
        cases hnew
  · intro a m c horigin
    change v.Origin (Function.update net.node b s a) m c at horigin
    by_cases ha : a = b
    · subst ha
      rw [Function.update_self] at horigin
      obtain hold | hnew := hpasses.origin m c horigin
      · exact hkeep (h.origin a m c hold)
      · exact hkeep (h.sent c a m (hgot c m hnew))
    · rw [Function.update_of_ne ha] at horigin
      exact hkeep (h.origin a m c horigin)
  · intro a c hlapsed
    change v.Current (Function.update net.node b s a) c
    by_cases ha : a = b
    · subst ha
      rw [Function.update_self]
      exact hcurrent c hlapsed (h.current a c hlapsed)
    · rw [Function.update_of_ne ha]
      exact h.current a c hlapsed
  · intro a c m hlapsed hpassed
    change v.Passed (Function.update net.node b s a) m at hpassed
    change v.Knows (Function.update net.node b s c) m ∨
      m ∈ rest a c ++ if a = b then out c else []
    have hreaches := fun hold => (h.reaches_rest (m := m) ht hpasses.knows hlapsed hold).imp_right
      (List.mem_append_left (if a = b then out c else []))
    by_cases ha : a = b
    · subst ha
      rw [Function.update_self] at hpassed
      obtain hpassed | hnew := hpasses.passed m hpassed
      · exact hreaches hpassed
      -- The node sends what it passes on to all but those that it has it from.
      · obtain horigin | hout := hnew c (h.current a c hlapsed)
        · exact .inl (hkeep (h.origin a m c horigin))
        · rw [if_pos rfl]
          exact .inr (List.mem_append_right _ hout)
    · rw [Function.update_of_ne ha] at hpassed
      exact hreaches hpassed
  · intro a c first m after hlapsed hlink p hp
    change rest a c ++ (if a = b then out c else []) = first ++ m :: after at hlink
    change v.Knows (Function.update net.node b s c) p ∨ p ∈ first
    -- The message was there before, or it is sent now, after all that was.
    obtain ⟨between, hfirst, hout⟩ | ⟨between, hold, hafter⟩ := List.append_eq_append_iff.mp hlink
    · rw [hfirst]
      have hm : m ∈ if a = b then out c else [] := by rw [hout]; simp
      exact (h.knows_before_sent ht hpasses hlapsed hm hp).imp_right (List.mem_append_left _)
    · cases between with
      | nil =>
          rw [List.append_nil] at hold
          rw [← hold]
          have hm : m ∈ if a = b then out c else [] := by
            rw [← List.nil_append (if a = b then out c else []), ← hafter]
            simp
          exact h.knows_before_sent ht hpasses hlapsed hm hp
      | cons m' between =>
          obtain ⟨rfl, -⟩ := List.cons.inj hafter
          exact h.inOrder_rest ht hpasses.knows hlapsed hold hp

theorem Spreads.act (h : v.Spreads net) (hpasses : v.Passes (net.node b) s none out)
    (hcurrent : ∀ c, net.lapsed b c = false → v.Current (net.node b) c → v.Current s c) :
    v.Spreads (net.act b s out) :=
  h.move hpasses hcurrent (fun _ _ => .inl rfl) fun _ _ hgot => by cases hgot

theorem Spreads.receive {a : ν} {m : μ} {after : List μ} (h : v.Spreads net)
    (hlink : net.link a b = m :: after) (hpasses : v.Passes (net.node b) s (some (a, m)) out)
    (hcurrent : ∀ c, net.lapsed b c = false → v.Current (net.node b) c → v.Current s c) :
    v.Spreads (net.receive a b s out) := by
  refine h.move hpasses hcurrent (fun x y => ?_) fun a' m' hgot => ?_
  · by_cases hxy : x = a ∧ y = b
    · obtain ⟨rfl, rfl⟩ := hxy
      exact .inr ⟨rfl, m, by simp [hlink], hpasses.gets x m rfl⟩
    · exact .inl (if_neg hxy)
  · obtain ⟨rfl, rfl⟩ := Prod.mk.inj (Option.some.inj hgot)
    rw [hlink]
    exact List.mem_cons_self

/-- A link that has lapsed promises nothing but that its sender knows what is on it. -/
theorem Spreads.lapse {c : ν} {l : List μ} (h : v.Spreads net)
    (hl : ∀ m ∈ l, v.Knows (net.node b) m) : v.Spreads (net.lapse b c l) := by
  have hlapsed : ∀ {x y}, (net.lapse b c l).lapsed x y = false →
      net.lapsed x y = false ∧ (net.lapse b c l).link x y = net.link x y := fun {x y} h => by
    obtain ⟨hold, hother⟩ := Bool.or_eq_false_iff.mp h
    exact ⟨hold, if_neg (of_decide_eq_false hother)⟩
  constructor
  · intro x y m hm
    by_cases hxy : x = b ∧ y = c
    · obtain ⟨rfl, rfl⟩ := hxy
      exact hl m (by simpa [FloodNet.lapse] using hm)
    · exact h.sent x y m (by simpa [FloodNet.lapse, hxy] using hm)
  · exact h.origin
  · exact fun x y hxy => h.current x y (hlapsed hxy).1
  · intro x y m hxy hpassed
    obtain ⟨hold, hlink⟩ := hlapsed hxy
    rw [hlink]
    exact h.reaches x y m hold hpassed
  · intro x y first m rest hxy
    obtain ⟨hold, hlink⟩ := hlapsed hxy
    rw [hlink]
    exact h.inOrder x y first m rest hold

omit [DecidableEq ν] in
/-- What comes next to the end of a link comes after what must come before it. -/
theorem Spreads.next_inOrder {a c : ν} {m : μ} {rest : List μ} (h : v.Spreads net)
    (hlapsed : net.lapsed a c = false) (hlink : net.link a c = m :: rest) {p : μ}
    (hp : v.before m = some p) : v.Knows (net.node c) p :=
  (h.inOrder a c [] m rest hlapsed hlink p hp).resolve_right List.not_mem_nil

end View

end FloodNet
