import Mathlib.Algebra.Group.Int.Defs
import Mathlib.Data.Fin.Tuple.Basic
import Mathlib.Data.List.Basic
import Mathlib.Data.List.Forall2

/-!
Transition systems whose steps may fail.  A step is a function into `Except`;
a failed step is rolled back, so that a run over any sequence of inputs is
total and changes the state only through the steps that succeed.

The first part is the inversion kit for such step functions: a successful
composite computation is taken apart into successful parts.  The second part
packages the one induction every safety argument needs: what each successful
step preserves holds after the whole run.
-/

namespace Rollback

universe u v

/-! ### Taking a successful computation apart -/

section Except

variable {φ : Type v} {α β : Type u}

@[simp] theorem pure_eq_ok {a b : α} : (pure a : Except φ α) = .ok b ↔ a = b := by
  simp [pure, Except.pure]

@[simp] theorem bind_eq_ok {x : Except φ α} {f : α → Except φ β} {b : β} :
    (x >>= f) = .ok b ↔ ∃ a, x = .ok a ∧ f a = .ok b := by
  cases x <;> simp [bind, Except.bind]

@[simp] theorem ok_bind (a : α) (f : α → Except φ β) : (Except.ok a >>= f) = f a := rfl

@[simp] theorem error_bind (e : φ) (f : α → Except φ β) :
    (Except.error e >>= f) = .error e := rfl

@[simp] theorem map_eq_ok {x : Except φ α} {f : α → β} {b : β} :
    (f <$> x) = .ok b ↔ ∃ a, x = .ok a ∧ f a = b := by
  cases x <;> simp [Functor.map, Except.map]

/-- A computation that succeeds only if `p` holds. -/
theorem ite_ok_eq_ok {p : Prop} [Decidable p] {a b : α} {e : φ} :
    (if p then .ok a else .error e) = (.ok b : Except φ α) ↔ p ∧ a = b := by
  by_cases hp : p <;> simp [hp]

/-- A computation that fails if `p` holds. -/
theorem ite_error_eq_ok {p : Prop} [Decidable p] {x : Except φ α} {b : α} {e : φ} :
    (if p then .error e else x) = .ok b ↔ ¬ p ∧ x = .ok b := by
  by_cases hp : p <;> simp [hp]

/-- A computation that fails if there is no value. -/
theorem elim_error_eq_ok {γ : Type*} {x : Option γ} {f : γ → Except φ α} {b : α} {e : φ} :
    x.elim (.error e) f = .ok b ↔ ∃ a, x = some a ∧ f a = .ok b := by
  cases x <;> simp

theorem bind_eq_error {x : Except φ α} {f : α → Except φ β} {e : φ} :
    (x >>= f) = .error e ↔ x = .error e ∨ ∃ a, x = .ok a ∧ f a = .error e := by
  cases x <;> simp [bind, Except.bind]

theorem foldlM_singleton_eq_ok {ι : Type*} {f : α → ι → Except φ α} {a a' : α} {b : ι} :
    [b].foldlM f a = .ok a' ↔ f a b = .ok a' := by
  rw [List.foldlM_cons, bind_eq_ok]
  simp only [List.foldlM_nil, pure_eq_ok, exists_eq_right]

/-- What every successful element of a fold preserves, the fold preserves. -/
theorem foldlM_induction {ι : Type*} {f : α → ι → Except φ α} {I : α → Prop}
    {l : List ι} (hstep : ∀ b ∈ l, ∀ a a', I a → f a b = .ok a' → I a') {a a' : α}
    (hI : I a) (h : l.foldlM f a = .ok a') : I a' := by
  induction l generalizing a with
  | nil =>
      rw [List.foldlM_nil, pure_eq_ok] at h
      exact h ▸ hI
  | cons b l ih =>
      rw [List.foldlM_cons, bind_eq_ok] at h
      obtain ⟨m, hm, h⟩ := h
      exact ih (fun b' hb' => hstep b' (by simp [hb'])) (hstep b (by simp) _ _ hI hm) h

/-- A fold follows another one when each of its steps does. -/
theorem foldlM_simulation {ι ι' β φ' : Type*} {f : α → ι → Except φ α}
    {g : β → ι' → Except φ' β} {R : α → β → Prop} {M : ι → ι' → Prop}
    (hstep : ∀ a b i j a', R a b → M i j → f a i = .ok a' → ∃ b', g b j = .ok b' ∧ R a' b')
    {l : List ι} {l' : List ι'} (hl : List.Forall₂ M l l') {a a' : α} {b : β} (hR : R a b)
    (h : l.foldlM f a = .ok a') : ∃ b', l'.foldlM g b = .ok b' ∧ R a' b' := by
  induction hl generalizing a b with
  | nil =>
      rw [List.foldlM_nil, pure_eq_ok] at h
      exact ⟨b, rfl, h ▸ hR⟩
  | cons hij _ ih =>
      rw [List.foldlM_cons, bind_eq_ok] at h
      obtain ⟨m, hm, h⟩ := h
      obtain ⟨n, hn, hR⟩ := hstep _ _ _ _ _ hR hij hm
      rw [List.foldlM_cons, hn]
      exact ih hR h

/-- One computation for each index, in order, of which all have to succeed. -/
def forEach : {n : ℕ} → {A : Fin n → Type u} → ((k : Fin n) → Except φ (A k)) →
    Except φ ((k : Fin n) → A k)
  | 0, _, _ => .ok fun k => k.elim0
  | _ + 1, _, f => do
    let a ← f 0
    let rest ← forEach fun k => f k.succ
    pure (Fin.cons a rest)

@[simp] theorem forEach_eq_ok {n : ℕ} {A : Fin n → Type u} {f : (k : Fin n) → Except φ (A k)}
    {g : (k : Fin n) → A k} : forEach f = .ok g ↔ ∀ k, f k = .ok (g k) := by
  induction n with
  | zero =>
      refine ⟨fun _ k => k.elim0, fun _ => ?_⟩
      rw [forEach]
      exact congrArg Except.ok (funext fun k => k.elim0)
  | succ n ih =>
      simp only [forEach, bind_eq_ok, ih, pure_eq_ok]
      constructor
      · rintro ⟨a, ha, rest, hrest, rfl⟩ k
        cases k using Fin.cases with
        | zero => exact ha
        | succ k => exact hrest k
      · intro h
        exact ⟨g 0, h 0, fun k => g k.succ, fun k => h k.succ, Fin.cons_self_tail g⟩

/-! ### Agreement with a specification -/

/-- The computation succeeds when the specification has a result, with a related
one, and fails when it has none. -/
inductive Agree {α β : Type*} (R : α → β → Prop) : Except φ α → Option β → Prop
  | ok {a : α} {b : β} (h : R a b) : Agree R (.ok a) (some b)
  | fail (e : φ) : Agree R (.error e) none

theorem Agree.bind {α' : Type u} {β β' : Type*} {R : α → β → Prop} {S : α' → β' → Prop}
    {x : Except φ α} {y : Option β} (h : Agree R x y) {f : α → Except φ α'} {g : β → Option β'}
    (hf : ∀ a b, R a b → Agree S (f a) (g b)) : Agree S (x >>= f) (y.bind g) := by
  cases h with
  | ok h => exact hf _ _ h
  | fail e => exact .fail e

theorem Agree.imp {β : Type*} {R S : α → β → Prop} {x : Except φ α} {y : Option β}
    (h : Agree R x y) (himp : ∀ a b, R a b → S a b) : Agree S x y := by
  cases h with
  | ok h => exact .ok (himp _ _ h)
  | fail e => exact .fail e

theorem Agree.sound {β : Type*} {R : α → β → Prop} {x : Except φ α} {y : Option β}
    (h : Agree R x y) {a : α} (ha : x = .ok a) : ∃ b, y = some b ∧ R a b := by
  cases h with
  | ok h => exact ⟨_, rfl, Except.ok.inj ha ▸ h⟩
  | fail e => cases ha

theorem Agree.complete {β : Type*} {R : α → β → Prop} {x : Except φ α} {y : Option β}
    (h : Agree R x y) {b : β} (hb : y = some b) : ∃ a, x = .ok a ∧ R a b := by
  cases h with
  | ok h => exact ⟨_, rfl, Option.some.inj hb ▸ h⟩
  | fail e => cases hb

/-! ### Failures that cannot happen -/

/-- `x` does not fail with a failure in `B`. -/
def Avoids (B : φ → Prop) (x : Except φ α) : Prop := ∀ e, x = .error e → ¬ B e

variable {B : φ → Prop}

theorem avoids_ok (a : α) : Avoids B (.ok a : Except φ α) := fun _ h => by cases h

theorem avoids_pure (a : α) : Avoids B (pure a : Except φ α) := avoids_ok a

theorem avoids_error {e : φ} (he : ¬ B e) : Avoids B (.error e : Except φ α) := fun e' h => by
  cases h
  exact he

/-- A computation avoids what its parts avoid, each part after those before it
have succeeded. -/
theorem Avoids.bind {x : Except φ α} {f : α → Except φ β} (hx : Avoids B x)
    (hf : ∀ a, x = .ok a → Avoids B (f a)) : Avoids B (x >>= f) := fun e h => by
  rcases bind_eq_error.mp h with he | ⟨a, ha, he⟩
  · exact hx e he
  · exact hf a ha e he

theorem Avoids.map {x : Except φ α} (hx : Avoids B x) (f : α → β) : Avoids B (f <$> x) := by
  cases x with
  | ok a => exact avoids_ok _
  | error e => exact avoids_error (hx e rfl)

theorem avoids_foldlM {ι : Type*} {f : α → ι → Except φ α} {I : α → Prop} {l : List ι}
    (hf : ∀ b ∈ l, ∀ a, I a → Avoids B (f a b))
    (hI : ∀ b ∈ l, ∀ a a', I a → f a b = .ok a' → I a') {a : α} (ha : I a) :
    Avoids B (l.foldlM f a) := by
  induction l generalizing a with
  | nil => exact avoids_pure a
  | cons b l ih =>
      rw [List.foldlM_cons]
      refine (hf b (by simp) a ha).bind fun a' ha' => ?_
      exact ih (fun b' hb' => hf b' (by simp [hb'])) (fun b' hb' => hI b' (by simp [hb']))
        (hI b (by simp) a a' ha ha')

end Except

/-! ### Runs -/

section Runs

variable {σ ε φ : Type*} (step : σ → ε → Except φ σ)

/-- The state after one input: the new state if the step succeeds, the old
one if it fails. -/
def push (s : σ) (e : ε) : σ :=
  match step s e with
  | .ok s' => s'
  | .error _ => s

def run (s : σ) (es : List ε) : σ := es.foldl (push step) s

/-- The states a run visits, its first one included. -/
def trace (s : σ) : List ε → List σ
  | [] => [s]
  | e :: es => s :: trace (push step s e) es

/-- The inputs of the run that succeed. -/
def accepted (s : σ) : List ε → List ε
  | [] => []
  | e :: es => (match step s e with
    | .ok _ => [e]
    | .error _ => []) ++ accepted (push step s e) es

/-- Every successful step of the run satisfies `P`. -/
def Along (P : σ → ε → σ → Prop) (s : σ) : List ε → Prop
  | [] => True
  | e :: es => (∀ s', step s e = .ok s' → P s e s') ∧ Along P (push step s e) es

/-- What the successful steps of the run come to, when a step counts `w`. -/
def tally (w : σ → ε → σ → ℤ) (s : σ) : List ε → ℤ
  | [] => 0
  | e :: es => (match step s e with
    | .ok s' => w s e s'
    | .error _ => 0) + tally w (push step s e) es

instance decidableOk {α : Type*} {P : α → Prop} [∀ a, Decidable (P a)] :
    (x : Except φ α) → Decidable (∀ a, x = .ok a → P a)
  | .ok a => decidable_of_iff (P a) ⟨fun h _ ha => Except.ok.inj ha ▸ h, fun h => h a rfl⟩
  | .error _ => isTrue fun _ h => by cases h

instance decidableExistsOk {α : Type*} {P : α → Prop} [∀ a, Decidable (P a)] :
    (x : Except φ α) → Decidable (∃ a, x = .ok a ∧ P a)
  | .ok a => decidable_of_iff (P a) ⟨fun h => ⟨a, rfl, h⟩, fun ⟨_, ha, h⟩ => Except.ok.inj ha ▸ h⟩
  | .error _ => isFalse fun ⟨_, h, _⟩ => by cases h

instance decidableAlong {P : σ → ε → σ → Prop} [∀ s e s', Decidable (P s e s')] :
    (s : σ) → (es : List ε) → Decidable (Along step P s es)
  | _, [] => isTrue trivial
  | s, e :: es => @instDecidableAnd _ _ (decidableOk (step s e)) (decidableAlong (push step s e) es)

@[simp] theorem run_nil (s : σ) : run step s [] = s := rfl

@[simp] theorem run_cons (s : σ) (e : ε) (es : List ε) :
    run step s (e :: es) = run step (push step s e) es := rfl

theorem run_append (s : σ) (es es' : List ε) :
    run step s (es ++ es') = run step (run step s es) es' :=
  List.foldl_append

variable {step}

theorem push_ok {s s' : σ} {e : ε} (h : step s e = .ok s') : push step s e = s' := by
  simp [push, h]

theorem push_error {s : σ} {e : ε} {f : φ} (h : step s e = .error f) :
    push step s e = s := by
  simp [push, h]

/-- A property kept by the steps that succeed is kept by every input. -/
theorem push_induction {I : σ → Prop} {s : σ} {e : ε} (hI : I s)
    (hstep : ∀ s', step s e = .ok s' → I s') : I (push step s e) := by
  cases h : step s e with
  | ok s' => rw [push_ok h]; exact hstep s' h
  | error f => rw [push_error h]; exact hI

theorem Along.and {P Q : σ → ε → σ → Prop} {s : σ} {es : List ε} (hP : Along step P s es)
    (hQ : Along step Q s es) : Along step (fun s e s' => P s e s' ∧ Q s e s') s es := by
  induction es generalizing s with
  | nil => trivial
  | cons e es ih => exact ⟨fun s' h => ⟨hP.1 s' h, hQ.1 s' h⟩, ih hP.2 hQ.2⟩

/-- What every successful step satisfies. -/
theorem along_of {P : σ → ε → σ → Prop} (h : ∀ s e s', step s e = .ok s' → P s e s') {s : σ}
    {es : List ε} : Along step P s es := by
  induction es generalizing s with
  | nil => trivial
  | cons e es ih => exact ⟨fun s' hs' => h s e s' hs', ih⟩

theorem Along.last {P : σ → ε → σ → Prop} {s s' : σ} {es : List ε} {e : ε}
    (h : Along step P s (es ++ [e])) (hok : step (run step s es) e = .ok s') :
    P (run step s es) e s' := by
  induction es generalizing s with
  | nil => exact h.1 s' hok
  | cons e' es ih => exact ih h.2 hok

theorem mem_trace_self (s : σ) (es : List ε) : s ∈ trace step s es := by
  cases es <;> simp [trace]

theorem run_mem_trace (s : σ) (es : List ε) : run step s es ∈ trace step s es := by
  induction es generalizing s with
  | nil => exact List.mem_singleton_self s
  | cons e es ih => exact List.mem_cons_of_mem s (ih (push step s e))

/-- Every step leads to a state of the trace. -/
theorem along_trace {Q : σ → Prop} {s : σ} {es : List ε} (h : ∀ t ∈ trace step s es, Q t) :
    Along step (fun _ _ s' => Q s') s es := by
  induction es generalizing s with
  | nil => trivial
  | cons e es ih =>
      have hrest : ∀ t ∈ trace step (push step s e) es, Q t := fun t ht =>
        h t (List.mem_cons_of_mem s ht)
      exact ⟨fun s' hs' => hrest s' (push_ok hs' ▸ mem_trace_self _ es), ih hrest⟩

/-- The run rule: an invariant of the steps that satisfy `P` holds after every
run whose steps all satisfy `P`. -/
theorem run_induction_along {I : σ → Prop} {P : σ → ε → σ → Prop}
    (hstep : ∀ s e s', I s → step s e = .ok s' → P s e s' → I s')
    {s : σ} {es : List ε} (hP : Along step P s es) (hI : I s) : I (run step s es) := by
  induction es generalizing s with
  | nil => exact hI
  | cons e es ih =>
      exact ih hP.2 (push_induction hI fun s' h => hstep s e s' hI h (hP.1 s' h))

theorem run_induction {I : σ → Prop}
    (hstep : ∀ s e s', I s → step s e = .ok s' → I s')
    {s : σ} (es : List ε) (hI : I s) : I (run step s es) := by
  induction es generalizing s with
  | nil => exact hI
  | cons e es ih => exact ih (push_induction hI fun s' h => hstep s e s' hI h)

/-- The run rule for inputs that satisfy `A`: the invariant holds after the run, and
with it `P` of every step. -/
theorem along_induction {I : σ → Prop} {A : ε → Prop} {P : σ → ε → σ → Prop}
    (hstep : ∀ s e s', I s → A e → step s e = .ok s' → I s' ∧ P s e s') {s : σ} {es : List ε}
    (hes : ∀ e ∈ es, A e) (hI : I s) : I (run step s es) ∧ Along step P s es := by
  induction es generalizing s with
  | nil => exact ⟨hI, trivial⟩
  | cons e es ih =>
      have he : A e := hes e List.mem_cons_self
      have hrest := ih (fun e' he' => hes e' (List.mem_cons_of_mem e he'))
        (push_induction hI fun s' h => (hstep s e s' hI he h).1)
      exact ⟨hrest.1, fun s' h => (hstep s e s' hI he h).2, hrest.2⟩

/-- What the steps that satisfy `P` do from states of an invariant that they keep. -/
theorem Along.of_invariant {I : σ → Prop} {P R : σ → ε → σ → Prop}
    (hstep : ∀ s e s', I s → step s e = .ok s' → P s e s' → I s' ∧ R s e s') {s : σ} {es : List ε}
    (hP : Along step P s es) (hI : I s) : Along step R s es := by
  induction es generalizing s with
  | nil => trivial
  | cons e es ih =>
      refine ⟨fun s' h => (hstep s e s' hI h (hP.1 s' h)).2, ih hP.2 ?_⟩
      exact push_induction hI fun s' h => (hstep s e s' hI h (hP.1 s' h)).1

/-- The rule for all states of a run: what every step from inputs that satisfy `A` keeps
holds in each of them, and with it `P` of every step. -/
theorem trace_induction {I : σ → Prop} {A : ε → Prop} {P : σ → ε → σ → Prop}
    (hstep : ∀ s e s', I s → A e → step s e = .ok s' → I s' ∧ P s e s') {s : σ} {es : List ε}
    (hes : ∀ e ∈ es, A e) (hI : I s) : (∀ t ∈ trace step s es, I t) ∧ Along step P s es := by
  induction es generalizing s with
  | nil =>
      refine ⟨fun t ht => ?_, trivial⟩
      rw [List.mem_singleton.mp ht]
      exact hI
  | cons e es ih =>
      have he : A e := hes e List.mem_cons_self
      obtain ⟨htrace, hrest⟩ := ih (fun e' he' => hes e' (List.mem_cons_of_mem e he'))
        (push_induction hI fun s' h => (hstep s e s' hI he h).1)
      refine ⟨fun t ht => ?_, fun s' h => (hstep s e s' hI he h).2, hrest⟩
      obtain rfl | ht := List.mem_cons.mp ht
      · exact hI
      · exact htrace t ht

/-- An invariant of the steps that satisfy `P` holds in every state of a run whose steps all
satisfy `P`. -/
theorem trace_induction_along {I : σ → Prop} {P : σ → ε → σ → Prop}
    (hstep : ∀ s e s', I s → step s e = .ok s' → P s e s' → I s') {s : σ} {es : List ε}
    (hP : Along step P s es) (hI : I s) : ∀ t ∈ trace step s es, I t := by
  induction es generalizing s with
  | nil =>
      intro t ht
      rw [List.mem_singleton.mp ht]
      exact hI
  | cons e es ih =>
      intro t ht
      obtain rfl | ht := List.mem_cons.mp ht
      · exact hI
      · exact ih hP.2 (push_induction hI fun s' h => hstep s e s' hI h (hP.1 s' h)) t ht

/-- Where a step that satisfies `P` keeps `J`, which implies `Q`, and one that does not loses
`Q`, every state of a run has `Q` exactly if all of its steps satisfy `P`. -/
theorem trace_iff_along {J Q : σ → Prop} {P : σ → ε → Prop} (hQ : ∀ s, J s → Q s)
    (hkeep : ∀ s e s', J s → step s e = .ok s' → P s e → J s')
    (hlose : ∀ s e s', J s → step s e = .ok s' → Q s' → P s e) {s : σ} {es : List ε}
    (hs : J s) : (∀ t ∈ trace step s es, Q t) ↔ Along step (fun s e _ => P s e) s es := by
  constructor
  · intro h
    induction es generalizing s with
    | nil => trivial
    | cons e es ih =>
        have hrest : ∀ t ∈ trace step (push step s e) es, Q t := fun t ht =>
          h t (List.mem_cons_of_mem s ht)
        have hP : ∀ s', step s e = .ok s' → P s e := fun s' hs' =>
          hlose s e s' hs hs' (push_ok hs' ▸ hrest _ (mem_trace_self _ es))
        exact ⟨hP, ih (push_induction hs fun s' hs' => hkeep s e s' hs hs' (hP s' hs')) hrest⟩
  · exact fun h t ht => hQ t (trace_induction_along hkeep h hs t ht)

/-- Where no step gains `Q`, and a step keeps it exactly if it satisfies `P`, it holds after a
run exactly if it holds before and all of the steps satisfy `P`. -/
theorem run_iff_along {I Q : σ → Prop} {P : σ → ε → Prop}
    (hI : ∀ s e s', I s → step s e = .ok s' → I s')
    (hQ : ∀ s e s', I s → step s e = .ok s' → (Q s' ↔ Q s ∧ P s e)) {s : σ} {es : List ε}
    (hs : I s) : Q (run step s es) ↔ Q s ∧ Along step (fun s e _ => P s e) s es := by
  induction es generalizing s with
  | nil => exact ⟨fun h => ⟨h, trivial⟩, fun h => h.1⟩
  | cons e es ih =>
      rw [run_cons, ih (push_induction hs fun s' h => hI s e s' hs h)]
      cases h : step s e with
      | ok s' =>
          have hP : (∀ t, step s e = .ok t → P s e) ↔ P s e :=
            ⟨fun hall => hall s' h, fun hstep _ _ => hstep⟩
          rw [Along, push_ok h, hQ s e s' hs h, hP, and_assoc]
      | error f =>
          have hP : (∀ t, step s e = .ok t → P s e) ↔ True :=
            ⟨fun _ => trivial, fun _ t ht => by rw [h] at ht; cases ht⟩
          rw [Along, push_error h, hP, true_and]

/-- The run rule with the history: a property of the state and of the inputs
accepted so far that every accepted input from those that satisfy `A` keeps. -/
theorem run_induction_accepted_of {I : σ → List ε → Prop} {A : ε → Prop}
    (hstep : ∀ s d e s', I s d → A e → step s e = .ok s' → I s' (d ++ [e]))
    {s : σ} {d : List ε} {es : List ε} (hes : ∀ e ∈ es, A e) (hI : I s d) :
    I (run step s es) (d ++ accepted step s es) := by
  induction es generalizing s d with
  | nil => exact (List.append_nil d).symm ▸ hI
  | cons e es ih =>
      have hrest : ∀ e' ∈ es, A e' := fun e' he' => hes e' (List.mem_cons_of_mem e he')
      rw [run_cons, accepted, ← List.append_assoc]
      cases h : step s e with
      | ok s' =>
          rw [push_ok h]
          exact ih hrest (hstep s d e s' hI (hes e List.mem_cons_self) h)
      | error f =>
          rw [push_error h, List.append_nil]
          exact ih hrest hI

theorem run_induction_accepted {I : σ → List ε → Prop}
    (hstep : ∀ s d e s', I s d → step s e = .ok s' → I s' (d ++ [e]))
    {s : σ} {d : List ε} (es : List ε) (hI : I s d) :
    I (run step s es) (d ++ accepted step s es) :=
  run_induction_accepted_of (A := fun _ => True) (fun s d e s' hI _ => hstep s d e s' hI)
    (fun _ _ => trivial) hI

/-- A run follows a run of another system when each accepted step that satisfies `P`
follows one of its steps; rejected inputs have no counterpart. -/
theorem run_simulation {σ' ε' φ' : Type*} {step' : σ' → ε' → Except φ' σ'} {R : σ → σ' → Prop}
    {P : σ → ε → σ → Prop} {A : ε → Prop} {M : ε → ε' → Prop}
    (hstep : ∀ s t e s', R s t → A e → step s e = .ok s' → P s e s' →
      ∃ e' t', M e e' ∧ step' t e' = .ok t' ∧ R s' t')
    {s : σ} {t : σ'} {es : List ε} (hes : ∀ e ∈ es, A e) (hP : Along step P s es) (hR : R s t) :
    ∃ es', List.Forall₂ M (accepted step s es) es' ∧ R (run step s es) (run step' t es') := by
  induction es generalizing s t with
  | nil => exact ⟨[], .nil, hR⟩
  | cons e es ih =>
      have hrest : ∀ e' ∈ es, A e' := fun e' he' => hes e' (List.mem_cons_of_mem e he')
      rw [run_cons, accepted]
      cases h : step s e with
      | ok s' =>
          obtain ⟨e', t', hM, ht', hR⟩ :=
            hstep s t e s' hR (hes e List.mem_cons_self) h (hP.1 s' h)
          obtain ⟨es', hes', hrun⟩ := ih (t := t') hrest hP.2 (by rwa [push_ok h])
          rw [push_ok h] at hes' hrun ⊢
          exact ⟨e' :: es', .cons hM hes', by rwa [run_cons, push_ok ht']⟩
      | error f =>
          obtain ⟨es', hes', hrun⟩ := ih (t := t) hrest hP.2 (by rwa [push_error h])
          rw [push_error h] at hes' hrun ⊢
          exact ⟨es', hes', hrun⟩

/-- A quantity that every step changes by what the step counts. -/
theorem run_tally {I : σ → Prop} {P : σ → ε → σ → Prop} {w : σ → ε → σ → ℤ} {f : σ → ℤ}
    (hI : ∀ s e s', I s → step s e = .ok s' → P s e s' → I s')
    (hf : ∀ s e s', I s → step s e = .ok s' → P s e s' → f s' = f s + w s e s')
    {s : σ} {es : List ε} (hP : Along step P s es) (hs : I s) :
    f (run step s es) = f s + tally step w s es := by
  induction es generalizing s with
  | nil => exact (add_zero _).symm
  | cons e es ih =>
      have hrest := ih hP.2 (push_induction hs fun s' h => hI s e s' hs h (hP.1 s' h))
      rw [run_cons, hrest, tally, ← add_assoc]
      congr 1
      cases h : step s e with
      | ok s' => rw [push_ok h, hf s e s' hs h (hP.1 s' h)]
      | error φ => rw [push_error h, add_zero]

end Runs

end Rollback
