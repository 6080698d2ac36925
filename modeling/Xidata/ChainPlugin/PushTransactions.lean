import Mathlib.Data.Nat.Notation
import Xidata.Library.Rollback

/-!
Transactions that are pushed together.  They are pushed one after the other, each from the
callback of the one before it, which runs before the push returns or at any later time.  The
callback that was handed in is called once, after the last push has completed, with a result
for each transaction.  The conversions of transactions and traces are outside, and so is the
method that takes a transaction: it calls back at once, keeps the callback or throws.
-/

namespace Xidata.ChainPlugin

/-- What the method does with a transaction and the callback for it. -/
inductive AsyncOutcome (T E : Type)
  | answered (result : Except E T)
  | held
  | thrown (e : E)
  | outOfMemory

structure PushResult (V : Type) where
  transactionId : ℕ := 0
  processed : V
  deriving DecidableEq

/-- Transactions as they come are of type `P`, packed ones `Q`, and traces `T`.  What is
thrown is of type `E`, however it is caught.  The method is told which push it is. -/
structure PushHost (P Q T V E : Type) where
  fromVariant : P → Except E Q
  packedTransactionTypeException : E → E
  transactionAsync : ℕ → Q → AsyncOutcome T E
  traceId : T → ℕ
  toVariantWithAbi : T → Except E V
  isAbiException : E → Bool
  toVariant : T → Except E V
  errorObject : E → V
  tooManyTxAtOnce : E
  outOfRange : E

inductive PushMark (P V E : Type)
  | submitted (index : ℕ) (trx : P)
  | completed (index : ℕ) (result : Except E (PushResult V))
  /-- The process is told to stop. -/
  | sigusr1
  /-- The callback of the whole is called. -/
  | next (answer : Except E (List (PushResult V)))

def PushMark.answer {P V E : Type} : PushMark P V E → Option (Except E (List (PushResult V)))
  | .next answer => some answer
  | _ => none

/-- What the callbacks share, and in `held` those that the method keeps, by the push they are
for; `log` has what has happened. -/
structure Batch (P V E : Type) where
  params : List P
  results : List (PushResult V) := []
  held : List ℕ := []
  log : List (PushMark P V E) := []

namespace Batch

variable {P Q T V E : Type}

def mark (s : Batch P V E) (m : PushMark P V E) : Batch P V E := { s with log := s.log ++ [m] }

/-- The calls of the callback that was handed in. -/
def nexts (s : Batch P V E) : List (Except E (List (PushResult V))) :=
  s.log.filterMap PushMark.answer

/-- No push is submitted before the one before it has been completed. -/
def Serial (s : Batch P V E) : Prop :=
  ∀ before i trx after, s.log = before ++ .submitted (i + 1) trx :: after →
    ∃ r, .completed i r ∈ before

end Batch

namespace PushHost

variable {P Q T V E : Type} (h : PushHost P Q T V E)

/-! ### One transaction -/

/-- A trace is shown plainly where its parts have no description. -/
def outputOf (trace : T) : Except E (PushResult V) :=
  match h.toVariantWithAbi trace with
  | .ok output => .ok ⟨h.traceId trace, output⟩
  | .error e =>
    if h.isAbiException e then (h.toVariant trace).map fun output => ⟨h.traceId trace, output⟩
    else .error e

/-- All exceptions but one are handed to `next`. -/
def pushTransaction (index : ℕ) (params : P)
    (next : Except E (PushResult V) → Batch P V E → Batch P V E) (s : Batch P V E) :
    Batch P V E :=
  match h.fromVariant params with
  | .error e => next (.error (h.packedTransactionTypeException e)) s
  | .ok prettyInput =>
    match h.transactionAsync index prettyInput with
    | .answered result => next (result.bind h.outputOf) s
    | .held => { s with held := s.held ++ [index] }
    | .thrown e => next (.error e) s
    | .outOfMemory => s.mark .sigusr1

/-! ### All of them -/

def entry (result : Except E (PushResult V)) : PushResult V :=
  match result with
  | .error e => { processed := h.errorObject e }
  | .ok r => r

def emplaceBack (s : Batch P V E) (index : ℕ) (result : Except E (PushResult V)) : Batch P V E :=
  { s with
    results := s.results ++ [h.entry result]
    log := s.log ++ [.completed index result] }

/-- The callback of the push with the number `index`, which has `rest` after it. -/
def wrappedNext (index : ℕ) (rest : List P) (result : Except E (PushResult V))
    (s : Batch P V E) : Batch P V E :=
  let s := h.emplaceBack s index result
  match rest with
  | [] => s.mark (.next (.ok s.results))
  | trx :: rest =>
    h.pushTransaction (index + 1) trx (wrappedNext (index + 1) rest)
      (s.mark (.submitted (index + 1) trx))

/-- The first access is checked, and nothing is pushed if there is no transaction. -/
def pushRecurse (index : ℕ) (s : Batch P V E) : Except E (Batch P V E) :=
  match s.params.drop index with
  | [] => .error h.outOfRange
  | trx :: rest =>
    .ok (h.pushTransaction index trx (h.wrappedNext index rest) (s.mark (.submitted index trx)))

def pushTransactions (params : List P) : Batch P V E :=
  let s : Batch P V E := { params := params }
  if params.length ≤ 1000 then
    match h.pushRecurse 0 s with
    | .ok s => s
    | .error e => s.mark (.next (.error e))
  else s.mark (.next (.error h.tooManyTxAtOnce))

/-- A callback that the method keeps, by its place, is called. -/
structure Callback (T E : Type) where
  place : ℕ
  result : Except E T

def step (s : Batch P V E) (c : Callback T E) : Except Unit (Batch P V E) :=
  match s.held[c.place]? with
  | none => .error ()
  | some index =>
    .ok (h.wrappedNext index (s.params.drop (index + 1)) (c.result.bind h.outputOf)
      { s with held := s.held.eraseIdx c.place })

/-! ### What has happened -/

/-- Pushes one after the other, from the one with the number `i` on, each completed before
the next. -/
def history : ℕ → List P → List (Except E (PushResult V)) → List (PushMark P V E)
  | i, trx :: params, r :: rs => .submitted i trx :: .completed i r :: history (i + 1) params rs
  | _, _, _ => []

theorem history_nil (i : ℕ) (params : List P) :
    history i params ([] : List (Except E (PushResult V))) = [] := by
  cases params <;> rfl

theorem history_concat {params rest : List P} {trx : P} {rs : List (Except E (PushResult V))}
    (hdrop : params.drop rs.length = trx :: rest) (i : ℕ) (r : Except E (PushResult V)) :
    history i params (rs ++ [r]) =
      history i params rs ++ [.submitted (i + rs.length) trx, .completed (i + rs.length) r] := by
  induction rs generalizing params i with
  | nil =>
      rw [List.length_nil, List.drop_zero] at hdrop
      subst hdrop
      rw [List.nil_append, history, history_nil, history_nil]
      rfl
  | cons a rs ih =>
      match params with
      | [] => simp at hdrop
      | p :: params =>
          rw [List.length_cons, List.drop_succ_cons] at hdrop
          have hplace : i + 1 + rs.length = i + (rs.length + 1) := by omega
          rw [List.cons_append, history, ih hdrop, history, hplace]
          rfl

theorem filterMap_history (i : ℕ) (params : List P) (rs : List (Except E (PushResult V))) :
    (history i params rs).filterMap PushMark.answer = [] := by
  induction rs generalizing i params with
  | nil => rw [history_nil, List.filterMap_nil]
  | cons r rs ih =>
      match params with
      | [] => rfl
      | trx :: params =>
          rw [history, List.filterMap_cons_none rfl, List.filterMap_cons_none rfl, ih]

theorem completed_of_submitted_history {i j : ℕ} {params : List P} {trx : P}
    {rs : List (Except E (PushResult V))} (hmem : .submitted j trx ∈ history i params rs) :
    ∃ r, .completed j r ∈ history i params rs := by
  induction rs generalizing i params with
  | nil =>
      rw [history_nil] at hmem
      cases hmem
  | cons r rs ih =>
      match params with
      | [] => cases hmem
      | p :: params =>
          rw [history] at hmem ⊢
          cases hmem with
          | head => exact ⟨r, by simp⟩
          | tail _ hmem =>
              cases hmem with
              | tail _ hmem =>
                  obtain ⟨r', hr'⟩ := ih hmem
                  exact ⟨r', by simp [hr']⟩

theorem lt_of_completed_history {i j : ℕ} {params : List P} {r : Except E (PushResult V)}
    {rs : List (Except E (PushResult V))} (hmem : .completed j r ∈ history i params rs) :
    j < i + rs.length := by
  induction rs generalizing i params with
  | nil =>
      rw [history_nil] at hmem
      cases hmem
  | cons a rs ih =>
      rw [List.length_cons]
      match params with
      | [] => cases hmem
      | p :: params =>
          rw [history] at hmem
          cases hmem with
          | tail _ hmem =>
              cases hmem with
              | head => omega
              | tail _ hmem =>
                  have hlt := ih hmem
                  omega

/-- A push of the history comes after the completion of the one before it, and so does one
that comes after the history. -/
theorem serial_history {i j : ℕ} {params : List P} {trx : P}
    {rs : List (Except E (PushResult V))} {tail before after : List (PushMark P V E)}
    (htail : ∀ before j trx after, tail = before ++ .submitted j trx :: after →
      before = [] ∧ j = i + rs.length)
    (hlength : rs.length ≤ params.length)
    (h : history i params rs ++ tail = before ++ .submitted (j + 1) trx :: after) :
    j + 1 = i ∨ ∃ r, .completed j r ∈ before := by
  induction rs generalizing i params before with
  | nil =>
      rw [history_nil] at h
      exact .inl (htail _ _ _ _ h).2
  | cons r rs ih =>
      match params with
      | [] => simp at hlength
      | p :: params =>
          rw [history, List.cons_append, List.cons_append] at h
          match before with
          | [] =>
              cases h
              exact .inl rfl
          | [_] => cases h
          | x :: y :: before =>
              simp only [List.cons_append, List.cons.injEq] at h
              obtain ⟨rfl, rfl, h⟩ := h
              have htail' : ∀ before j trx after, tail = before ++ .submitted j trx :: after →
                  before = [] ∧ j = i + 1 + rs.length := fun before j trx after heq => by
                obtain ⟨hbefore, hj⟩ := htail before j trx after heq
                rw [List.length_cons] at hj
                exact ⟨hbefore, by omega⟩
              rcases ih htail' (by simpa using hlength) h with hj | ⟨r', hr'⟩
              · obtain rfl : j = i := by omega
                exact .inr ⟨r, by simp⟩
              · exact .inr ⟨r', by simp [hr']⟩

/-- Where a batch can be between two callbacks: the last push is open, it will never be
completed, or the callback that was handed in has been called. -/
inductive Progress (params : List P) (s : Batch P V E) : Prop
  | waiting (rs : List (Except E (PushResult V))) (trx : P) (rest : List P)
      (hparams : s.params = params) (hdrop : params.drop rs.length = trx :: rest)
      (hresults : s.results = rs.map h.entry) (hheld : s.held = [rs.length])
      (hlog : s.log = history 0 params rs ++ [.submitted rs.length trx])
  | stopped (rs : List (Except E (PushResult V))) (trx : P) (rest : List P) (prettyInput : Q)
      (hdrop : params.drop rs.length = trx :: rest) (hheld : s.held = [])
      (hmemory : h.transactionAsync rs.length prettyInput = .outOfMemory)
      (hlog : s.log = history 0 params rs ++ [.submitted rs.length trx, .sigusr1])
  | answered (rs : List (Except E (PushResult V))) (hlength : rs.length = params.length)
      (hheld : s.held = [])
      (hlog : s.log = history 0 params rs ++ [.next (.ok (rs.map h.entry))])
  | refused (e : E) (hparams : params = [] ∨ 1000 < params.length) (hheld : s.held = [])
      (hlog : s.log = [.next (.error e)])

/-- A push has been submitted after those whose results are `rs`. -/
structure Submitted (params : List P) (s : Batch P V E) (rs : List (Except E (PushResult V)))
    (trx : P) (rest : List P) : Prop where
  params_eq : s.params = params
  drop : params.drop rs.length = trx :: rest
  results : s.results = rs.map h.entry
  held : s.held = []
  log : s.log = history 0 params rs ++ [.submitted rs.length trx]

variable {h} {params rest : List P} {trx : P} {s s' : Batch P V E}
  {rs : List (Except E (PushResult V))}

theorem Submitted.pushTransaction (hs : Submitted h params s rs trx rest)
    {next : Except E (PushResult V) → Batch P V E → Batch P V E}
    (hnext : ∀ r, Progress h params (next r s)) :
    Progress h params (h.pushTransaction rs.length trx next s) := by
  unfold PushHost.pushTransaction
  split
  · exact hnext _
  · rename_i prettyInput _
    split
    · exact hnext _
    · exact .waiting rs trx rest hs.params_eq hs.drop hs.results (by dsimp only; rw [hs.held]; rfl)
        hs.log
    · exact hnext _
    · rename_i hmemory
      refine .stopped rs trx rest prettyInput hs.drop hs.held hmemory ?_
      rw [Batch.mark, hs.log, List.append_assoc]
      rfl

theorem length_of_drop {α : Type} {l rest : List α} {a : α} {n : ℕ} (h : l.drop n = a :: rest) :
    l.length = n + (rest.length + 1) := by
  have hlength := congrArg List.length h
  rw [List.length_drop, List.length_cons] at hlength
  omega

theorem Submitted.emplaceBack_log (hs : Submitted h params s rs trx rest)
    (r : Except E (PushResult V)) :
    (h.emplaceBack s rs.length r).log = history 0 params (rs ++ [r]) := by
  rw [emplaceBack, hs.log, history_concat hs.drop, Nat.zero_add, List.append_assoc]
  rfl

theorem Submitted.emplaceBack_results (hs : Submitted h params s rs trx rest)
    (r : Except E (PushResult V)) :
    (h.emplaceBack s rs.length r).results = (rs ++ [r]).map h.entry := by
  rw [emplaceBack, hs.results, List.map_append]
  rfl

/-- The callback of a push submits the next one or calls the callback that was handed in. -/
theorem Submitted.wrappedNext (hs : Submitted h params s rs trx rest)
    (r : Except E (PushResult V)) : Progress h params (h.wrappedNext rs.length rest r s) := by
  have hlength : (rs ++ [r]).length = rs.length + 1 := List.length_append
  induction rest generalizing s rs trx r with
  | nil =>
      refine .answered (rs ++ [r]) ?_ hs.held ?_
      · rw [hlength]
        exact (length_of_drop hs.drop).symm
      · show (h.emplaceBack s rs.length r).log ++ [_] = _
        rw [hs.emplaceBack_log, hs.emplaceBack_results]
  | cons trx' rest ih =>
      have hnext : Submitted h params
          ((h.emplaceBack s rs.length r).mark (.submitted (rs ++ [r]).length trx'))
          (rs ++ [r]) trx' rest := by
        refine ⟨hs.params_eq, ?_, hs.emplaceBack_results r, hs.held, ?_⟩
        · rw [hlength, ← List.drop_drop]
          exact congrArg (List.drop 1) hs.drop
        · rw [Batch.mark, hs.emplaceBack_log]
      have hpush := hnext.pushTransaction fun r' => ih hnext r' List.length_append
      rw [hlength] at hpush
      exact hpush

theorem progress_pushTransactions (h : PushHost P Q T V E) (params : List P) :
    Progress h params (h.pushTransactions params) := by
  unfold pushTransactions
  dsimp only
  split
  · match params with
    | [] => exact .refused h.outOfRange (.inl rfl) rfl rfl
    | trx :: rest =>
        have hfirst : Submitted h (trx :: rest)
            (Batch.mark ({ params := trx :: rest } : Batch P V E) (.submitted 0 trx))
            [] trx rest := ⟨rfl, rfl, rfl, rfl, rfl⟩
        exact hfirst.pushTransaction fun r => hfirst.wrappedNext r
  · rename_i hlarge
    exact .refused h.tooManyTxAtOnce (.inr (Nat.lt_of_not_le hlarge)) rfl rfl

/-- Only a push that is waited for can be completed. -/
theorem Progress.step {c : Callback T E} (hs : Progress h params s) (hstep : h.step s c = .ok s') :
    ∃ rs trx rest, Submitted h params { s with held := [] } rs trx rest ∧ s.held = [rs.length] ∧
      s' = h.wrappedNext rs.length rest (c.result.bind h.outputOf) { s with held := [] } := by
  unfold PushHost.step at hstep
  cases hs with
  | waiting rs trx rest hparams hdrop hresults hheld hlog =>
      rw [hheld] at hstep
      match c with
      | ⟨0, result⟩ =>
          have hrest : s.params.drop (rs.length + 1) = rest := by
            rw [← List.drop_drop, hparams, hdrop]
            rfl
          cases hstep
          rw [hrest]
          exact ⟨rs, trx, rest, ⟨hparams, hdrop, hresults, rfl, hlog⟩, hheld, rfl⟩
      | ⟨place + 1, result⟩ => cases hstep
  | stopped rs trx rest prettyInput hdrop hheld hmemory hlog =>
      rw [hheld] at hstep
      cases hstep
  | answered rs hlength hheld hlog =>
      rw [hheld] at hstep
      cases hstep
  | refused e hparams hheld hlog =>
      rw [hheld] at hstep
      cases hstep

theorem progress_run (h : PushHost P Q T V E) (params : List P) (cs : List (Callback T E)) :
    Progress h params (Rollback.run h.step (h.pushTransactions params) cs) := by
  refine Rollback.run_induction (fun s c s' hs hstep => ?_) cs (progress_pushTransactions h params)
  obtain ⟨rs, trx, rest, hsubmitted, -, rfl⟩ := hs.step hstep
  exact hsubmitted.wrappedNext _

/-! ### The answer -/

theorem nexts_of_log {marks : List (PushMark P V E)} (hlog : s.log = history 0 params rs ++ marks) :
    s.nexts = marks.filterMap PushMark.answer := by
  rw [Batch.nexts, hlog, List.filterMap_append, filterMap_history, List.nil_append]

/-- The last push is open, and nothing has come after it but a signal to stop. -/
structure IsOpen (params : List P) (s : Batch P V E) (rs : List (Except E (PushResult V)))
    (trx : P) (marks : List (PushMark P V E)) : Prop where
  length_lt : rs.length < params.length
  log : s.log = history 0 params rs ++ .submitted rs.length trx :: marks
  signals : marks = [] ∨ marks = [.sigusr1]

/-- What a log can be, whether or not the open push can be completed. -/
theorem Progress.outcome (hs : Progress h params s) :
    (∃ rs trx marks, IsOpen params s rs trx marks) ∨
      (∃ rs : List (Except E (PushResult V)), rs.length = params.length ∧
        s.log = history 0 params rs ++ [.next (.ok (rs.map h.entry))]) ∨
      ∃ e, (params = [] ∨ 1000 < params.length) ∧ s.log = [.next (.error e)] := by
  cases hs with
  | waiting rs trx rest hparams hdrop hresults hheld hlog =>
      have hlength := length_of_drop hdrop
      exact .inl ⟨rs, trx, [], by omega, hlog, .inl rfl⟩
  | stopped rs trx rest prettyInput hdrop hheld hmemory hlog =>
      have hlength := length_of_drop hdrop
      exact .inl ⟨rs, trx, [.sigusr1], by omega, hlog, .inr rfl⟩
  | answered rs hlength hheld hlog => exact .inr (.inl ⟨rs, hlength, hlog⟩)
  | refused e hparams hheld hlog => exact .inr (.inr ⟨e, hparams, hlog⟩)

theorem IsOpen.nexts_eq {marks : List (PushMark P V E)} (ho : IsOpen params s rs trx marks) :
    s.nexts = [] := by
  rw [nexts_of_log ho.log]
  rcases ho.signals with rfl | rfl <;> rfl

theorem Progress.nexts_length (hs : Progress h params s) : s.nexts.length ≤ 1 := by
  obtain ⟨rs, trx, marks, ho⟩ | ⟨rs, -, hlog⟩ | ⟨e, -, hlog⟩ := hs.outcome
  · rw [ho.nexts_eq]
    exact Nat.zero_le 1
  · rw [nexts_of_log hlog]
    exact Nat.le_refl 1
  · rw [Batch.nexts, hlog]
    exact Nat.le_refl 1

/-- The push that has been submitted last is not completed. -/
theorem IsOpen.not_completed {marks : List (PushMark P V E)} (ho : IsOpen params s rs trx marks)
    (r : Except E (PushResult V)) : .completed rs.length r ∉ s.log := by
  rw [ho.log, List.mem_append]
  rintro (hmem | hmem)
  · have hlt := lt_of_completed_history hmem
    omega
  · rcases ho.signals with rfl | rfl <;> simp at hmem

/-- The pushes of the history are completed. -/
theorem completed_of_log {marks : List (PushMark P V E)} {i : ℕ}
    (hlog : s.log = history 0 params rs ++ marks) (hmem : .submitted i trx ∈ s.log)
    (hmarks : .submitted i trx ∉ marks) : ∃ r, .completed i r ∈ s.log := by
  rw [hlog, List.mem_append] at hmem
  obtain ⟨r, hr⟩ := completed_of_submitted_history (hmem.resolve_right hmarks)
  exact ⟨r, by rw [hlog]; exact List.mem_append_left _ hr⟩

/-- The callback that was handed in has been called exactly if no push is open. -/
theorem Progress.nexts_length_iff (hs : Progress h params s) :
    s.nexts.length = 1 ↔ ∀ i trx, .submitted i trx ∈ s.log → ∃ r, .completed i r ∈ s.log := by
  obtain ⟨rs, trx, marks, ho⟩ | ⟨rs, -, hlog⟩ | ⟨e, -, hlog⟩ := hs.outcome
  · refine iff_of_false (by rw [ho.nexts_eq]; exact Nat.zero_ne_one) fun hall => ?_
    obtain ⟨r, hr⟩ := hall rs.length trx (by simp [ho.log])
    exact ho.not_completed r hr
  · exact iff_of_true (by rw [nexts_of_log hlog]; rfl) fun i trx hmem =>
      completed_of_log hlog hmem (by simp)
  · refine iff_of_true (by rw [Batch.nexts, hlog]; rfl) fun i trx hmem => ?_
    simp [hlog] at hmem

/-- A push that is open can still be completed, or the process has been told to stop. -/
theorem Progress.completed_or_held (hs : Progress h params s) {i : ℕ} {trx : P}
    (hmem : .submitted i trx ∈ s.log) :
    (∃ r, .completed i r ∈ s.log) ∨ i ∈ s.held ∨ .sigusr1 ∈ s.log := by
  cases hs with
  | waiting rs trx' rest hparams hdrop hresults hheld hlog =>
      by_cases hlast : i = rs.length
      · exact .inr (.inl (by simp [hheld, hlast]))
      · exact .inl (completed_of_log hlog hmem (by simp [hlast]))
  | stopped rs trx rest prettyInput hdrop hheld hmemory hlog =>
      exact .inr (.inr (by simp [hlog]))
  | answered rs hlength hheld hlog =>
      exact .inl (completed_of_log hlog hmem (by simp))
  | refused e hparams hheld hlog => simp [hlog] at hmem

theorem serial_of_log {marks : List (PushMark P V E)}
    (hlog : s.log = history 0 params rs ++ marks) (hlength : rs.length ≤ params.length)
    (hmarks : ∀ before j trx after, marks = before ++ .submitted j trx :: after →
      before = [] ∧ j = 0 + rs.length) : s.Serial := by
  intro before i trx after heq
  rw [hlog] at heq
  exact (serial_history hmarks hlength heq).resolve_left (Nat.succ_ne_zero i)

/-- No push comes after the last one. -/
theorem eq_nil_of_last {k j : ℕ} {p trx : P} {marks before after : List (PushMark P V E)}
    (hmarks : ∀ j trx, .submitted j trx ∉ marks)
    (heq : .submitted k p :: marks = before ++ .submitted j trx :: after) :
    before = [] ∧ j = k := by
  match before with
  | [] =>
      cases heq
      exact ⟨rfl, rfl⟩
  | x :: before =>
      obtain ⟨-, rfl⟩ := List.cons.inj heq
      exact absurd (List.mem_append_right before List.mem_cons_self) (hmarks j trx)

theorem IsOpen.serial {marks : List (PushMark P V E)} (ho : IsOpen params s rs trx marks) :
    s.Serial := by
  refine serial_of_log ho.log ho.length_lt.le fun before j trx' after heq => ?_
  rw [Nat.zero_add]
  exact eq_nil_of_last (by rcases ho.signals with rfl | rfl <;> simp) heq

theorem Progress.serial (hs : Progress h params s) : s.Serial := by
  obtain ⟨rs, trx, marks, ho⟩ | ⟨rs, hlength, hlog⟩ | ⟨e, -, hlog⟩ := hs.outcome
  · exact ho.serial
  · refine serial_of_log hlog hlength.le fun before j trx after heq => ?_
    have hmem : PushMark.submitted j trx ∈ before ++ PushMark.submitted j trx :: after := by simp
    rw [← heq] at hmem
    simp at hmem
  · intro before j trx after heq
    have hmem : PushMark.submitted (j + 1) trx ∈ s.log := by simp [heq]
    simp [hlog] at hmem

/-- The answer comes after all pushes and has a result for each, in their order. -/
theorem Progress.answer_eq (hs : Progress h params s) (hparams : params ≠ [])
    (hlength : params.length ≤ 1000) {answer : Except E (List (PushResult V))}
    (hanswer : answer ∈ s.nexts) :
    ∃ rs : List (Except E (PushResult V)), rs.length = params.length ∧
      answer = .ok (rs.map h.entry) ∧ s.log = history 0 params rs ++ [.next answer] := by
  obtain ⟨rs, trx, marks, ho⟩ | ⟨rs, hrs, hlog⟩ | ⟨e, hrefused, hlog⟩ := hs.outcome
  · rw [ho.nexts_eq] at hanswer
    cases hanswer
  · rw [nexts_of_log hlog] at hanswer
    obtain rfl := List.mem_singleton.mp hanswer
    exact ⟨rs, hrs, rfl, hlog⟩
  · rcases hrefused with rfl | hlarge
    · exact absurd rfl hparams
    · omega

/-! ### Completion -/

theorem le_results_pushTransaction {index : ℕ} {p : P}
    {next : Except E (PushResult V) → Batch P V E → Batch P V E}
    (hnext : ∀ r, s.results.length ≤ (next r s).results.length) :
    s.results.length ≤ (h.pushTransaction index p next s).results.length := by
  unfold PushHost.pushTransaction
  split
  · exact hnext _
  · split
    · exact hnext _
    · exact Nat.le_refl _
    · exact hnext _
    · exact Nat.le_refl _

theorem lt_results_wrappedNext (index : ℕ) (rest : List P) (r : Except E (PushResult V))
    (s : Batch P V E) : s.results.length < (h.wrappedNext index rest r s).results.length := by
  have hemplace : (h.emplaceBack s index r).results.length = s.results.length + 1 :=
    List.length_append
  induction rest generalizing index r s with
  | nil => exact hemplace.ge
  | cons trx rest ih =>
      let next := (h.emplaceBack s index r).mark (.submitted (index + 1) trx)
      have hpush : next.results.length ≤ (h.wrappedNext index (trx :: rest) r s).results.length :=
        le_results_pushTransaction fun r' => (ih (index + 1) r' next List.length_append).le
      exact Nat.lt_of_lt_of_le hemplace.ge hpush

/-- Nothing happens to a batch that waits for no callback. -/
theorem run_of_held_nil (hheld : s.held = []) (cs : List (Callback T E)) :
    Rollback.run h.step s cs = s := by
  induction cs with
  | nil => rfl
  | cons c cs ih =>
      have herror : h.step s c = .error () := by
        rw [PushHost.step, hheld]
        rfl
      rw [Rollback.run_cons, Rollback.push_error herror, ih]

theorem Progress.nexts_of_held_nil (hs : Progress h params s) (hheld : s.held = [])
    (hmemory : ∀ i prettyInput, h.transactionAsync i prettyInput ≠ .outOfMemory) :
    s.nexts.length = 1 := by
  cases hs with
  | waiting rs trx rest hparams hdrop hresults hwaiting hlog =>
      rw [hwaiting] at hheld
      cases hheld
  | stopped rs trx rest prettyInput hdrop hheld houtOfMemory hlog =>
      exact absurd houtOfMemory (hmemory _ _)
  | answered rs hlength hheld hlog =>
      rw [nexts_of_log hlog]
      rfl
  | refused e hparams hheld hlog =>
      rw [Batch.nexts, hlog]
      rfl

theorem Progress.results_lt (hs : Progress h params s) (hheld : s.held ≠ []) :
    s.results.length < params.length := by
  cases hs with
  | waiting rs trx rest hparams hdrop hresults hwaiting hlog =>
      rw [hresults, List.length_map, length_of_drop hdrop]
      omega
  | stopped rs trx rest prettyInput hdrop hnone houtOfMemory hlog => exact absurd hnone hheld
  | answered rs hlength hnone hlog => exact absurd hnone hheld
  | refused e hparams hnone hlog => exact absurd hnone hheld

/-- Where the method answers what it keeps and memory lasts, the callback that was handed in
is called. -/
theorem Progress.nexts_after (hs : Progress h params s)
    (hmemory : ∀ i prettyInput, h.transactionAsync i prettyInput ≠ .outOfMemory)
    {results : List (Except E T)} (hlength : params.length ≤ s.results.length + results.length) :
    (Rollback.run h.step s (results.map fun result => ⟨0, result⟩)).nexts.length = 1 := by
  induction results generalizing s with
  | nil =>
      refine hs.nexts_of_held_nil ?_ hmemory
      by_contra hheld
      have hlt := hs.results_lt hheld
      rw [List.length_nil] at hlength
      omega
  | cons result results ih =>
      match hheld : s.held with
      | [] =>
          rw [run_of_held_nil hheld]
          exact hs.nexts_of_held_nil hheld hmemory
      | index :: held =>
          have hstep : h.step s ⟨0, result⟩ =
              .ok (h.wrappedNext index (s.params.drop (index + 1)) (result.bind h.outputOf)
                { s with held := held }) := by
            rw [PushHost.step, hheld]
            rfl
          obtain ⟨rs, trx, rest, hsubmitted, -, heq⟩ := hs.step hstep
          have hmore := lt_results_wrappedNext (h := h) index (s.params.drop (index + 1))
            (result.bind h.outputOf) { s with held := held }
          rw [List.map_cons, Rollback.run_cons, Rollback.push_ok hstep]
          refine ih (heq ▸ hsubmitted.wrappedNext _) ?_
          rw [List.length_cons] at hlength
          dsimp only at hmore
          omega

/-- However the pushes come out and whenever they are completed: the callback that was handed
in is called once, as soon as no push is open, and no push is submitted before the one before
it has been completed.  There is a result for each transaction, in their order.  A push that
is open can be completed unless memory has run out, and as many answers as there are
transactions are enough. -/
theorem pushTransactions_answers_once (h : PushHost P Q T V E) (params : List P)
    (cs : List (Callback T E)) :
    let s := Rollback.run h.step (h.pushTransactions params) cs
    s.nexts.length ≤ 1 ∧
      (s.nexts.length = 1 ↔
        ∀ i trx, .submitted i trx ∈ s.log → ∃ r, .completed i r ∈ s.log) ∧
      (∀ i trx, .submitted i trx ∈ s.log →
        (∃ r, .completed i r ∈ s.log) ∨ i ∈ s.held ∨ .sigusr1 ∈ s.log) ∧
      s.Serial ∧
      (params ≠ [] → params.length ≤ 1000 → ∀ answer ∈ s.nexts,
        ∃ rs : List (Except E (PushResult V)), rs.length = params.length ∧
          answer = .ok (rs.map h.entry) ∧ s.log = history 0 params rs ++ [.next answer]) ∧
      ((∀ i prettyInput, h.transactionAsync i prettyInput ≠ .outOfMemory) →
        ∀ results : List (Except E T), params.length ≤ results.length →
          (Rollback.run h.step s (results.map fun result => ⟨0, result⟩)).nexts.length = 1) := by
  intro s
  have hs : Progress h params s := progress_run h params cs
  refine ⟨hs.nexts_length, hs.nexts_length_iff, fun i trx => hs.completed_or_held, hs.serial,
    fun hparams hlength answer => hs.answer_eq hparams hlength, fun hmemory results hresults => ?_⟩
  exact hs.nexts_after hmemory (by omega)

/-- The first transaction cannot be read, the second is held and the others are not. -/
def sampleHost : PushHost ℕ ℕ ℕ String String where
  fromVariant n := if n = 0 then .error "not a transaction" else .ok n
  packedTransactionTypeException e := "Invalid packed transaction: " ++ e
  transactionAsync _ n :=
    if n = 1 then .held
    else if n = 2 then .answered (.error "expired transaction")
    else .answered (.ok n)
  traceId n := n
  toVariantWithAbi n := if n = 3 then .error "abi" else .ok "decoded"
  isAbiException e := e = "abi"
  toVariant _ := .ok "plain"
  errorObject e := e
  tooManyTxAtOnce := "Attempt to push too many transactions at once"
  outOfRange := "out of range"

theorem pushTransactions_answers_once_four :
    let s := Rollback.run sampleHost.step (sampleHost.pushTransactions [0, 1, 2, 3]) [⟨0, .ok 1⟩]
    (∀ answer ∈ s.nexts, ∃ rs : List (Except String (PushResult String)), rs.length = 4 ∧
        answer = .ok (rs.map sampleHost.entry) ∧
        s.log = history 0 [0, 1, 2, 3] rs ++ [.next answer]) ∧
      s.nexts = [.ok [⟨0, "Invalid packed transaction: not a transaction"⟩, ⟨1, "decoded"⟩,
        ⟨0, "expired transaction"⟩, ⟨3, "plain"⟩]] := by
  intro s
  have honce := pushTransactions_answers_once sampleHost [0, 1, 2, 3] [⟨0, .ok 1⟩]
  exact ⟨honce.2.2.2.2.1 (by decide) (by decide), rfl⟩

end PushHost

end Xidata.ChainPlugin
