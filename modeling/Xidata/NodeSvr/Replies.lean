import Mathlib.Data.List.Perm.Basic
import Xidata.Library.Rollback
import Xidata.NodeSvr.Route

/-!
The replies of the node server.  A variable that is shared by all requests is read before
any other request can write it, and a callback reads the response that its own handler
keeps, so that every reply is the result of the action of its own request.  From the end of
its body on, a request with an action is in flight or answered, and only one of both.
-/

namespace Xidata.NodeSvr

/-- The call that a request asks for once its body has ended. -/
def Request.Asks (rt : Runtime) (r : Request) (call : Call) : Prop :=
  r.ended = true ∧ ∃ e json, r.route = .exec e ∧ rt.parse r.body = some json ∧
    json.isNull = false ∧ call = e.call json

/-- A reply is due: to an action from the end of the body on, to a key at once, and never to
what is only logged. -/
def Request.due (r : Request) : Bool :=
  match r.route with
  | .exec _ => r.ended
  | .createkey => true
  | .logged => false

/-- The reply carries the result of the action that the request asks for, or its key. -/
def Reply.Answers (rt : Runtime) (reply : Reply) (r : Request) : Prop :=
  match reply.cause with
  | .result call result => r.Asks rt call ∧ reply.text = rt.stringify result
  | .key privateKey =>
    r.route = .createkey ∧ reply.text = rt.stringify (Gateway.keyBody rt privateKey)

namespace Gateway

variable {rt : Runtime} {s s' : Gateway} {k : ℕ} {r : Request}

/-! ### Counting -/

/-- The response that a handler keeps. -/
def resOf (handlers : List (Option ℕ)) (handler : ℕ) : Option ℕ := handlers[handler]?.join

/-- How many of the promises `ps` lead to the response `k`. -/
def waiting (handlers : List (Option ℕ)) (ps : List Promised) (k : ℕ) : ℕ :=
  ps.countP fun p => resOf handlers p.handler = some k

def inFlight (s : Gateway) (k : ℕ) : ℕ :=
  waiting s.handlers s.lookups k + waiting s.handlers s.pushes k + s.keys.countP (· = k)

def repliesTo (s : Gateway) (k : ℕ) : ℕ := s.replies.countP fun reply => reply.res = k

section Count

variable {α : Type} (q : α → Prop) [DecidablePred q]

theorem countP_concat (l : List α) (a : α) :
    (l ++ [a]).countP (fun x => q x) = l.countP (fun x => q x) + if q a then 1 else 0 := by
  rw [List.countP_append, List.countP_singleton]
  simp only [decide_eq_true_eq]

theorem countP_eraseIdx {l : List α} {i : ℕ} {a : α} (h : l[i]? = some a) :
    l.countP (fun x => q x) = (l.eraseIdx i).countP (fun x => q x) + if q a then 1 else 0 := by
  obtain ⟨hi, rfl⟩ := List.getElem?_eq_some_iff.mp h
  rw [← (List.getElem_cons_eraseIdx_perm hi).countP_eq, List.countP_cons]
  simp only [decide_eq_true_eq]

end Count

theorem waiting_concat (handlers : List (Option ℕ)) (ps : List Promised) (p : Promised) (k : ℕ) :
    waiting handlers (ps ++ [p]) k =
      waiting handlers ps k + if resOf handlers p.handler = some k then 1 else 0 :=
  countP_concat _ ps p

theorem waiting_eraseIdx (handlers : List (Option ℕ)) {ps : List Promised} {i : ℕ} {p : Promised}
    (h : ps[i]? = some p) (k : ℕ) :
    waiting handlers ps k =
      waiting handlers (ps.eraseIdx i) k + if resOf handlers p.handler = some k then 1 else 0 :=
  countP_eraseIdx _ h

/-! ### The invariant -/

/-- The callback of the promise will answer the request that asks for its call. -/
def Serves (rt : Runtime) (s : Gateway) (p : Promised) : Prop :=
  ∃ k r, resOf s.handlers p.handler = some k ∧ s.requests[k]? = some r ∧ r.Asks rt p.call

structure Delivers (rt : Runtime) (s : Gateway) : Prop where
  lookups : ∀ p ∈ s.lookups, s.Serves rt p
  pushes : ∀ p ∈ s.pushes, s.Serves rt p
  keys : ∀ k ∈ s.keys, ∃ r, s.requests[k]? = some r ∧ r.route = .createkey
  replies : ∀ reply ∈ s.replies, ∃ r, s.requests[reply.res]? = some r ∧ reply.Answers rt r
  balance : ∀ k, s.repliesTo k + s.inFlight k = if s.requests[k]?.any Request.due then 1 else 0

/-- Requests keep their route, those that have ended stay as they are, and so do handlers. -/
structure Extends (s s' : Gateway) : Prop where
  requests : ∀ (k : ℕ) (r : Request), s.requests[k]? = some r →
    ∃ r' : Request, s'.requests[k]? = some r' ∧ r'.route = r.route ∧ (r.ended = true → r' = r)
  handlers : ∀ a k, resOf s.handlers a = some k → resOf s'.handlers a = some k

theorem Extends.serves (h : Extends s s') {p : Promised} (hp : s.Serves rt p) :
    s'.Serves rt p := by
  obtain ⟨k, r, hres, hr, hasks⟩ := hp
  obtain ⟨r', hr', -, hsame⟩ := h.requests k r hr
  rw [hsame hasks.1] at hr'
  exact ⟨k, r, h.handlers _ k hres, hr', hasks⟩

theorem Extends.createkey (h : Extends s s')
    (hk : ∃ r, s.requests[k]? = some r ∧ r.route = .createkey) :
    ∃ r, s'.requests[k]? = some r ∧ r.route = .createkey := by
  obtain ⟨r, hr, hroute⟩ := hk
  obtain ⟨r', hr', hroute', -⟩ := h.requests k r hr
  exact ⟨r', hr', hroute'.trans hroute⟩

theorem Extends.answers (h : Extends s s') {reply : Reply}
    (hreply : ∃ r, s.requests[reply.res]? = some r ∧ reply.Answers rt r) :
    ∃ r, s'.requests[reply.res]? = some r ∧ reply.Answers rt r := by
  obtain ⟨r, hr, hanswers⟩ := hreply
  obtain ⟨r', hr', hroute, hsame⟩ := h.requests _ r hr
  refine ⟨r', hr', ?_⟩
  unfold Reply.Answers at hanswers ⊢
  cases hcause : reply.cause with
  | result call result =>
      rw [hcause] at hanswers
      rw [hsame hanswers.1.1]
      exact hanswers
  | key privateKey =>
      rw [hcause] at hanswers
      exact ⟨hroute.trans hanswers.1, hanswers.2⟩

theorem Extends.waiting (h : Extends s s') {ps : List Promised}
    (hps : ∀ p ∈ ps, s.Serves rt p) (k : ℕ) :
    waiting s'.handlers ps k = waiting s.handlers ps k := by
  -- A promise keeps its handler, and the handler its response.
  refine List.countP_congr fun p hp => ?_
  obtain ⟨k', -, hres, -⟩ := hps p hp
  rw [hres, h.handlers _ _ hres]

/-- Where nothing is promised, kept or sent and no reply becomes due, the invariant stays. -/
theorem Delivers.of_extends (h : Delivers rt s) (hext : Extends s s')
    (hlookups : s'.lookups = s.lookups) (hpushes : s'.pushes = s.pushes)
    (hkeys : s'.keys = s.keys) (hreplies : s'.replies = s.replies)
    (hdue : ∀ k : ℕ, s'.requests[k]?.any Request.due = s.requests[k]?.any Request.due) :
    Delivers rt s' where
  lookups p hp := by
    rw [hlookups] at hp
    exact hext.serves (h.lookups p hp)
  pushes p hp := by
    rw [hpushes] at hp
    exact hext.serves (h.pushes p hp)
  keys k hk := by
    rw [hkeys] at hk
    exact hext.createkey (h.keys k hk)
  replies reply hreply := by
    rw [hreplies] at hreply
    exact hext.answers (h.replies reply hreply)
  balance k := by
    rw [repliesTo, inFlight, hlookups, hpushes, hkeys, hreplies, hext.waiting h.lookups,
      hext.waiting h.pushes, hdue]
    exact h.balance k

/-- A request for which a reply becomes due gets one promise or key. -/
theorem Delivers.balance_add (h : Delivers rt s)
    (hnot : s.requests[k]?.any Request.due = false)
    (hdue : ∀ j : ℕ, s'.requests[j]?.any Request.due =
      if k = j then true else s.requests[j]?.any Request.due)
    (hadd : ∀ j, s'.repliesTo j + s'.inFlight j =
      s.repliesTo j + s.inFlight j + if k = j then 1 else 0) (j : ℕ) :
    s'.repliesTo j + s'.inFlight j = if s'.requests[j]?.any Request.due then 1 else 0 := by
  rw [hadd, h.balance, hdue]
  by_cases hj : k = j
  · subst hj
    rw [hnot, if_pos rfl, if_pos rfl]
    rfl
  · rw [if_neg hj, if_neg hj, Nat.add_zero]

/-! ### Requests -/

theorem extends_append (s : Gateway) (r : Request) :
    Extends s { s with requests := s.requests ++ [r] } where
  requests k r' hr' := ⟨r', by
    rw [List.getElem?_append_left (List.getElem?_eq_some_iff.mp hr').1]
    exact hr', rfl, fun _ => rfl⟩
  handlers _ _ h := h

theorem extends_set {r' : Request} (hr : s.requests[k]? = some r) (hended : r.ended = false)
    (hroute : r'.route = r.route) : Extends s { s with requests := s.requests.set k r' } where
  requests j q hq := by
    by_cases hj : k = j
    · subst hj
      cases hr.symm.trans hq
      refine ⟨r', List.getElem?_set_self (List.getElem?_eq_some_iff.mp hr).1, hroute, ?_⟩
      intro htrue
      rw [hended] at htrue
      cases htrue
    · exact ⟨q, by rw [List.getElem?_set_ne hj]; exact hq, rfl, fun _ => rfl⟩
  handlers _ _ h := h

theorem due_append (s : Gateway) (r : Request) (j : ℕ) :
    (s.requests ++ [r])[j]?.any Request.due =
      if s.requests.length = j then r.due else s.requests[j]?.any Request.due := by
  split
  · rename_i hj
    rw [← hj, List.getElem?_concat_length, Option.any_some]
  · rename_i hj
    obtain hgt | hlt := Nat.lt_or_gt_of_ne hj
    · rw [List.getElem?_eq_none (by simp; omega), List.getElem?_eq_none hgt.le]
    · rw [List.getElem?_append_left hlt]

theorem due_set {r' : Request} (hr : s.requests[k]? = some r) (j : ℕ) :
    (s.requests.set k r')[j]?.any Request.due =
      if k = j then r'.due else s.requests[j]?.any Request.due := by
  split
  · rename_i hj
    subst hj
    rw [List.getElem?_set_self (List.getElem?_eq_some_iff.mp hr).1, Option.any_some]
  · rename_i hj
    rw [List.getElem?_set_ne hj]

theorem Delivers.onRequest (h : Delivers rt s) (method pathname : String) :
    Delivers rt (s.onRequest method pathname) := by
  have hnone : s.requests[s.requests.length]? = none := List.getElem?_eq_none le_rfl
  unfold Gateway.onRequest
  dsimp only
  generalize hr : ({ method := method, pathname := pathname } : Request) = r
  have hext := s.extends_append r
  have hdue := s.due_append r
  cases hroute : r.route with
  | createkey =>
      have hr : r.due = true := by rw [Request.due, hroute]
      rw [hr] at hdue
      refine ⟨fun p hp => hext.serves (h.lookups p hp), fun p hp => hext.serves (h.pushes p hp),
        fun k hk => ?_, fun reply hreply => hext.answers (h.replies reply hreply),
        h.balance_add (by rw [hnone]; rfl) hdue fun j => ?_⟩
      · obtain hk | hk := List.mem_append.mp hk
        · exact hext.createkey (h.keys k hk)
        · rw [List.mem_singleton.mp hk]
          exact ⟨r, List.getElem?_concat_length, hroute⟩
      · have hkeys := countP_concat (· = j) s.keys s.requests.length
        show s.repliesTo j + (waiting s.handlers s.lookups j + waiting s.handlers s.pushes j +
          (s.keys ++ [s.requests.length]).countP (· = j)) = _
        rw [hkeys, inFlight]
        omega
  | _ =>
      have hr : r.due = false := by rw [Request.due, hroute, ← hr]
      rw [hr] at hdue
      refine h.of_extends hext rfl rfl rfl rfl fun j => ?_
      rw [hdue]
      split
      · rename_i hj
        rw [← hj, hnone]
        rfl
      · rfl

theorem Delivers.onData (h : Delivers rt s) (hr : s.requests[k]? = some r)
    (hended : r.ended = false) (body : String) :
    Delivers rt { s with requests := s.requests.set k { r with body := body } } := by
  refine h.of_extends (extends_set hr hended rfl) rfl rfl rfl rfl fun j => ?_
  rw [due_set hr]
  split
  · rename_i hj
    subst hj
    rw [hr]
    rfl
  · rfl

theorem Delivers.onLoggedEnd (h : Delivers rt s) (hr : s.requests[k]? = some r)
    (hended : r.ended = false) (hroute : ∀ e, r.route ≠ .exec e) :
    Delivers rt { s with requests := s.requests.set k { r with ended := true } } := by
  refine h.of_extends (extends_set hr hended rfl) rfl rfl rfl rfl fun j => ?_
  rw [due_set hr]
  split
  · rename_i hj
    subst hj
    rw [hr, Option.any_some]
    show (match r.route with | .exec _ => true | .createkey => true | .logged => false) = _
    unfold Request.due
    cases hcase : r.route with
    | exec e => exact absurd hcase (hroute e)
    | createkey => rfl
    | logged => rfl
  · rfl

/-! ### The end of a body -/

/-- The handler that is made is the one that gets the response and makes the call, although
it is read from a shared variable. -/
theorem onEnd_eq {e : Exec} {body : String} {json : Json} (hparse : rt.parse body = some json)
    (hnull : json.isNull = false) :
    s.onEnd rt k e body =
      { s with
        vars := Function.update s.vars e.handler (some s.handlers.length)
        handlers := s.handlers ++ [some k]
        eos := some s.config
        lookups := s.lookups ++ [⟨s.config, s.handlers.length, e.call json⟩] } := by
  -- No other request can write the variable before it is read.
  have hset : (s.newHandler e.handler).setRes e.handler k =
      { s with
        vars := Function.update s.vars e.handler (some s.handlers.length)
        handlers := s.handlers ++ [some k] } := by
    simp [newHandler, setRes]
  rw [onEnd, hparse]
  dsimp only
  rw [hset, hnull, if_neg Bool.false_ne_true]
  simp [invoke, newClient]

theorem resOf_append (s : Gateway) (k : ℕ) {a j : ℕ} (h : resOf s.handlers a = some j) :
    resOf (s.handlers ++ [some k]) a = some j := by
  have ha : a < s.handlers.length := by
    by_contra hge
    rw [resOf, List.getElem?_eq_none (not_lt.mp hge)] at h
    cases h
  rw [resOf, List.getElem?_append_left ha]
  exact h

theorem resOf_length (s : Gateway) (k : ℕ) :
    resOf (s.handlers ++ [some k]) s.handlers.length = some k := by
  rw [resOf, List.getElem?_concat_length]
  rfl

theorem Delivers.onEnd (h : Delivers rt s) {e : Exec} {json : Json}
    (hr : s.requests[k]? = some r) (hended : r.ended = false) (hroute : r.route = .exec e)
    (hparse : rt.parse r.body = some json) (hnull : json.isNull = false) :
    Delivers rt ({ s with requests := s.requests.set k { r with ended := true } }.onEnd rt k e
      r.body) := by
  rw [onEnd_eq hparse hnull]
  dsimp only
  have hext : Extends s
      { s with
        vars := Function.update s.vars e.handler (some s.handlers.length)
        handlers := s.handlers ++ [some k]
        eos := some s.config
        requests := s.requests.set k { r with ended := true } } :=
    ⟨(@extends_set s k r { r with ended := true } hr hended rfl).requests,
      fun a j => s.resOf_append k⟩
  have hdue : Request.due { r with ended := true } = true := by
    show (match r.route with | .exec _ => true | .createkey => true | .logged => false) = true
    rw [hroute]
  have hnot : r.due = false := by rw [Request.due, hroute, hended]
  refine ⟨fun p hp => ?_, fun p hp => hext.serves (h.pushes p hp),
    fun j hj => hext.createkey (h.keys j hj),
    fun reply hreply => hext.answers (h.replies reply hreply),
    h.balance_add (by rw [hr]; exact hnot) (fun j => ?_) fun j => ?_⟩
  · obtain hp | hp := List.mem_append.mp hp
    · exact hext.serves (h.lookups p hp)
    · rw [List.mem_singleton.mp hp]
      refine ⟨k, { r with ended := true }, s.resOf_length k,
        List.getElem?_set_self (List.getElem?_eq_some_iff.mp hr).1, rfl, e, json, hroute, hparse,
        hnull, rfl⟩
  · rw [due_set hr, hdue]
  · have hlookups := hext.waiting h.lookups j
    have hpushes := hext.waiting h.pushes j
    have hnew := waiting_concat (s.handlers ++ [some k]) s.lookups
      ⟨s.config, s.handlers.length, e.call json⟩ j
    simp only [s.resOf_length k, Option.some.injEq] at hnew
    show s.repliesTo j + (waiting (s.handlers ++ [some k]) (s.lookups ++ [_]) j +
      waiting (s.handlers ++ [some k]) s.pushes j + s.keys.countP (· = j)) = _
    rw [hnew, hpushes, hlookups, inFlight]
    omega

/-! ### Promises -/

theorem Delivers.onContract (h : Delivers rt s) {i : ℕ} {p : Promised}
    (hp : s.lookups[i]? = some p) : Delivers rt (s.onContract i p) := by
  have hserves : s.Serves rt p := h.lookups p (List.mem_of_getElem? hp)
  refine ⟨fun q hq => h.lookups q (List.mem_of_mem_eraseIdx hq), fun q hq => ?_, h.keys, h.replies,
    fun j => ?_⟩
  · obtain hq | hq := List.mem_append.mp hq
    · exact h.pushes q hq
    · rw [List.mem_singleton.mp hq]
      exact hserves
  · have hlookups := waiting_eraseIdx s.handlers hp j
    have hpushes := waiting_concat s.handlers s.pushes p j
    refine Eq.trans ?_ (h.balance j)
    show s.repliesTo j + (waiting s.handlers (s.lookups.eraseIdx i) j +
      waiting s.handlers (s.pushes ++ [p]) j + s.keys.countP (· = j)) = _
    rw [inFlight]
    omega

theorem onPushed_eq {i : ℕ} {p : Promised} {result : Json}
    (hres : resOf s.handlers p.handler = some k) :
    s.onPushed rt i p result =
      { s with
        pushes := s.pushes.eraseIdx i
        replies := s.replies ++
          [{ res := k, cause := .result p.call result, text := rt.stringify result }] } := by
  unfold onPushed
  dsimp only
  rw [← resOf, hres]

theorem Delivers.onPushed (h : Delivers rt s) {i : ℕ} {p : Promised} (hp : s.pushes[i]? = some p)
    (result : Json) : Delivers rt (s.onPushed rt i p result) := by
  obtain ⟨k, r, hres, hr, hasks⟩ := h.pushes p (List.mem_of_getElem? hp)
  rw [onPushed_eq hres]
  refine ⟨h.lookups, fun q hq => h.pushes q (List.mem_of_mem_eraseIdx hq), h.keys,
    fun reply hreply => ?_, fun j => ?_⟩
  · obtain hreply | hreply := List.mem_append.mp hreply
    · exact h.replies reply hreply
    · rw [List.mem_singleton.mp hreply]
      exact ⟨r, hr, hasks, rfl⟩
  · have hpushes := waiting_eraseIdx s.handlers hp j
    simp only [hres, Option.some.injEq] at hpushes
    refine Eq.trans ?_ (h.balance j)
    show (s.replies ++ [_]).countP (fun reply : Reply => reply.res = j) + (waiting s.handlers s.lookups j +
      waiting s.handlers (s.pushes.eraseIdx i) j + s.keys.countP (· = j)) = _
    rw [countP_concat, repliesTo, inFlight]
    dsimp only
    omega

theorem Delivers.onRandomKey (h : Delivers rt s) {i : ℕ} (hk : s.keys[i]? = some k)
    (privateKey : String) : Delivers rt (s.onRandomKey rt i k privateKey) := by
  obtain ⟨r, hr, hroute⟩ := h.keys k (List.mem_of_getElem? hk)
  refine ⟨h.lookups, h.pushes, fun j hj => h.keys j (List.mem_of_mem_eraseIdx hj),
    fun reply hreply => ?_, fun j => ?_⟩
  · obtain hreply | hreply := List.mem_append.mp hreply
    · exact h.replies reply hreply
    · rw [List.mem_singleton.mp hreply]
      exact ⟨r, hr, hroute, rfl⟩
  · have hkeys := countP_eraseIdx (· = j) hk
    refine Eq.trans ?_ (h.balance j)
    show (s.replies ++ [_]).countP (fun reply : Reply => reply.res = j) + (waiting s.handlers s.lookups j +
      waiting s.handlers s.pushes j + (s.keys.eraseIdx i).countP (· = j)) = _
    rw [countP_concat, repliesTo, inFlight]
    dsimp only
    omega

/-! ### Runs -/

/-- If the event ends a body that an action is made of, then it can be parsed and is not
null. -/
def readableBody (rt : Runtime) (s : Gateway) : GatewayEvent → Bool
  | .ended k => s.requests[k]?.all fun r =>
    match r.route with
    | .exec _ => (rt.parse r.body).any fun json => !json.isNull
    | _ => true
  | _ => true

theorem readableBody_ended {e : Exec} (h : s.readableBody rt (.ended k) = true)
    (hr : s.requests[k]? = some r) (hroute : r.route = .exec e) :
    ∃ json, rt.parse r.body = some json ∧ json.isNull = false := by
  rw [readableBody, hr, Option.all_some, hroute] at h
  obtain ⟨json, hparse, hnull⟩ := (Option.any_eq_true _ _).mp h
  exact ⟨json, hparse, by simpa using hnull⟩

/-- What a step can do. -/
inductive Takes (rt : Runtime) (s : Gateway) : GatewayEvent → Gateway → Prop
  | request (method pathname : String) :
      Takes rt s (.request method pathname) (s.onRequest method pathname)
  | data {k : ℕ} {r : Request} (chunk : List UInt8) (hr : s.requests[k]? = some r)
      (hended : r.ended = false) :
      Takes rt s (.data k chunk)
        { s with requests := s.requests.set k { r with body := r.body ++ rt.toText chunk } }
  | loggedData {k : ℕ} {r : Request} (chunk : List UInt8) (hr : s.requests[k]? = some r)
      (hroute : ∀ e, r.route ≠ .exec e) : Takes rt s (.data k chunk) s
  | ended {k : ℕ} {r : Request} {e : Exec} (hr : s.requests[k]? = some r)
      (hended : r.ended = false) (hroute : r.route = .exec e) :
      Takes rt s (.ended k)
        ({ s with requests := s.requests.set k { r with ended := true } }.onEnd rt k e r.body)
  | loggedEnd {k : ℕ} {r : Request} (hr : s.requests[k]? = some r) (hended : r.ended = false)
      (hroute : ∀ e, r.route ≠ .exec e) :
      Takes rt s (.ended k) { s with requests := s.requests.set k { r with ended := true } }
  | contract {i : ℕ} {p : Promised} (hp : s.lookups[i]? = some p) :
      Takes rt s (.contract i) (s.onContract i p)
  | pushed {i : ℕ} {p : Promised} (result : Json) (hp : s.pushes[i]? = some p) :
      Takes rt s (.pushed i result) (s.onPushed rt i p result)
  | randomKey {i k : ℕ} (privateKey : String) (hk : s.keys[i]? = some k) :
      Takes rt s (.randomKey i privateKey) (s.onRandomKey rt i k privateKey)

theorem step_takes {ev : GatewayEvent} (hstep : s.step rt ev = .ok s') : s.Takes rt ev s' := by
  unfold Gateway.step at hstep
  split at hstep
  · cases hstep
  cases ev with
  | request method pathname =>
      cases hstep
      exact .request method pathname
  | data k chunk =>
      dsimp only at hstep
      split at hstep
      · cases hstep
      · rename_i r hr
        split at hstep
        · cases hstep
        · rename_i hended
          split at hstep
          · cases hstep
            exact .data chunk hr (Bool.not_eq_true _ ▸ hended)
          · rename_i hroute
            cases hstep
            exact .loggedData chunk hr fun e heq => hroute e heq
  | ended k =>
      dsimp only at hstep
      split at hstep
      · cases hstep
      · rename_i r hr
        split at hstep
        · cases hstep
        · rename_i hended
          split at hstep
          · rename_i e hroute
            cases hstep
            exact .ended hr (Bool.not_eq_true _ ▸ hended) hroute
          · rename_i hroute
            cases hstep
            exact .loggedEnd hr (Bool.not_eq_true _ ▸ hended) fun e heq => hroute e heq
  | contract i =>
      dsimp only at hstep
      split at hstep
      · cases hstep
      · cases hstep
        exact .contract ‹_›
  | pushed i result =>
      dsimp only at hstep
      split at hstep
      · cases hstep
      · cases hstep
        exact .pushed result ‹_›
  | randomKey i privateKey =>
      dsimp only at hstep
      split at hstep
      · cases hstep
      · cases hstep
        exact .randomKey privateKey ‹_›

theorem delivers_start (rt : Runtime) (config : Config) : Delivers rt (start config) where
  lookups _ h := by cases h
  pushes _ h := by cases h
  keys _ h := by cases h
  replies _ h := by cases h
  balance _ := rfl

theorem Delivers.step {ev : GatewayEvent} (h : Delivers rt s) (hstep : s.step rt ev = .ok s')
    (hbody : s.readableBody rt ev = true) : Delivers rt s' := by
  cases step_takes hstep with
  | request method pathname => exact h.onRequest method pathname
  | data chunk hr hended => exact h.onData hr hended _
  | loggedData chunk hr hroute => exact h
  | ended hr hended hroute =>
      obtain ⟨json, hparse, hnull⟩ := readableBody_ended hbody hr hroute
      exact h.onEnd hr hended hroute hparse hnull
  | loggedEnd hr hended hroute => exact h.onLoggedEnd hr hended hroute
  | contract hp => exact h.onContract hp
  | pushed result hp => exact h.onPushed hp result
  | randomKey privateKey hk => exact h.onRandomKey hk privateKey

/-! ### Bodies -/

/-- The data that has come for a request. -/
def chunksOf (k : ℕ) (evs : List GatewayEvent) : List (List UInt8) :=
  evs.filterMap fun
    | .data j chunk => if j = k then some chunk else none
    | _ => none

/-- The text of a body: each chunk is decoded by itself. -/
def bodyText (rt : Runtime) (chunks : List (List UInt8)) : String :=
  chunks.foldl (fun body chunk => body ++ rt.toText chunk) ""

theorem bodyText_concat (chunks : List (List UInt8)) (chunk : List UInt8) :
    bodyText rt (chunks ++ [chunk]) = bodyText rt chunks ++ rt.toText chunk := by
  rw [bodyText, List.foldl_append]
  rfl

theorem chunksOf_concat (k : ℕ) (evs : List GatewayEvent) (ev : GatewayEvent) :
    chunksOf k (evs ++ [ev]) = chunksOf k evs ++ chunksOf k [ev] :=
  List.filterMap_append

theorem chunksOf_data (k j : ℕ) (chunk : List UInt8) :
    chunksOf k [.data j chunk] = if j = k then [chunk] else [] := by
  by_cases hj : j = k <;> simp [chunksOf, hj]

/-- Every request has the body that its own data makes, and there is none of a request to
come. -/
def Bodies (rt : Runtime) (s : Gateway) (evs : List GatewayEvent) : Prop :=
  ∀ k : ℕ, (s.requests[k]? = none → chunksOf k evs = []) ∧
    ∀ r e, s.requests[k]? = some r → r.route = .exec e → r.body = bodyText rt (chunksOf k evs)

theorem setRes_requests (s : Gateway) (v : HandlerVar) (res : ℕ) :
    (s.setRes v res).requests = s.requests := by
  unfold setRes
  split <;> rfl

theorem invoke_requests (s : Gateway) (v : HandlerVar) (call : Call) :
    (s.invoke v call).requests = s.requests := by
  unfold invoke
  split <;> rfl

theorem onEnd_requests (s : Gateway) (k : ℕ) (e : Exec) (body : String) :
    (s.onEnd rt k e body).requests = s.requests := by
  unfold onEnd
  split
  · rfl
  · dsimp only
    split
    · exact setRes_requests _ _ _
    · rw [invoke_requests, setRes_requests]
      rfl

theorem onRequest_requests (s : Gateway) (method pathname : String) :
    (s.onRequest method pathname).requests =
      s.requests ++ [{ method := method, pathname := pathname }] := by
  unfold onRequest
  dsimp only
  split <;> rfl

theorem onPushed_requests (s : Gateway) (i : ℕ) (p : Promised) (result : Json) :
    (s.onPushed rt i p result).requests = s.requests := by
  unfold onPushed
  dsimp only
  split <;> rfl

variable {evs : List GatewayEvent} {ev : GatewayEvent}

theorem Bodies.quiet (h : Bodies rt s evs) (hrequests : s'.requests = s.requests)
    (hev : ∀ k, chunksOf k [ev] = []) : Bodies rt s' (evs ++ [ev]) := by
  intro k
  rw [hrequests, chunksOf_concat, hev, List.append_nil]
  exact h k

theorem Bodies.request (h : Bodies rt s evs) {method pathname : String}
    (hrequests : s'.requests = s.requests ++ [{ method := method, pathname := pathname }]) :
    Bodies rt s' (evs ++ [.request method pathname]) := by
  intro k
  rw [hrequests, chunksOf_concat, show chunksOf k [.request method pathname] = [] from rfl,
    List.append_nil]
  obtain hlt | rfl | hgt := Nat.lt_trichotomy k s.requests.length
  · rw [List.getElem?_append_left hlt]
    exact h k
  · rw [List.getElem?_concat_length]
    refine ⟨fun hnone => (by cases hnone), fun r e hr _ => ?_⟩
    cases hr
    rw [(h _).1 (List.getElem?_eq_none le_rfl)]
    rfl
  · rw [List.getElem?_eq_none (by simp; omega)]
    exact ⟨fun _ => (h k).1 (List.getElem?_eq_none hgt.le), fun r e hr => by cases hr⟩

theorem Bodies.set (h : Bodies rt s evs) {j : ℕ} {r' : Request} (hr : s.requests[j]? = some r)
    (hrequests : s'.requests = s.requests.set j r')
    (hev : ∀ k, k ≠ j → chunksOf k [ev] = [])
    (hbody : ∀ e, r'.route = .exec e → r'.body = bodyText rt (chunksOf j (evs ++ [ev]))) :
    Bodies rt s' (evs ++ [ev]) := by
  intro k
  rw [hrequests]
  by_cases hk : k = j
  · subst hk
    rw [List.getElem?_set_self (List.getElem?_eq_some_iff.mp hr).1]
    refine ⟨fun hnone => (by cases hnone), fun q e hq hroute => ?_⟩
    cases hq
    exact hbody e hroute
  · rw [List.getElem?_set_ne (Ne.symm hk), chunksOf_concat, hev k hk, List.append_nil]
    exact h k

theorem Bodies.step (h : Bodies rt s evs) (hstep : s.step rt ev = .ok s') :
    Bodies rt s' (evs ++ [ev]) := by
  cases step_takes hstep with
  | request method pathname => exact h.request (s.onRequest_requests method pathname)
  | @data k r chunk hr hended =>
      refine h.set hr rfl (fun j hj => ?_) fun e hroute => ?_
      · rw [chunksOf_data, if_neg (Ne.symm hj)]
      · rw [chunksOf_concat, chunksOf_data, if_pos rfl, bodyText_concat, ← (h k).2 r e hr hroute]
  | @loggedData k r chunk hr hroute =>
      have hsame : s.requests = s.requests.set k r := by
        obtain ⟨hk, rfl⟩ := List.getElem?_eq_some_iff.mp hr
        exact (List.set_getElem_self hk).symm
      refine h.set hr hsame (fun j hj => ?_) fun e heq => absurd heq (hroute e)
      rw [chunksOf_data, if_neg (Ne.symm hj)]
  | @ended k r e hr hended hroute =>
      refine h.set hr (onEnd_requests _ k e r.body) (fun _ _ => rfl) fun e' hroute' => ?_
      rw [chunksOf_concat, show chunksOf k [.ended k] = [] from rfl, List.append_nil]
      exact (h k).2 r e' hr hroute'
  | @loggedEnd k r hr hended hroute =>
      exact h.set hr rfl (fun _ _ => rfl) fun e heq => absurd heq (hroute e)
  | contract hp => exact h.quiet rfl fun _ => rfl
  | pushed result hp => exact h.quiet (s.onPushed_requests _ _ result) fun _ => rfl
  | randomKey privateKey hk => exact h.quiet rfl fun _ => rfl

theorem bodies_run (rt : Runtime) (config : Config) (es : List GatewayEvent) :
    Bodies rt (Rollback.run (Gateway.step rt) (start config) es)
      (Rollback.accepted (Gateway.step rt) (start config) es) := by
  have hrun : Bodies rt (Rollback.run (Gateway.step rt) (start config) es)
      ([] ++ Rollback.accepted (Gateway.step rt) (start config) es) :=
    Rollback.run_induction_accepted (fun _ _ _ _ h hstep => h.step hstep) es
      fun k => ⟨fun _ => rfl, fun r e hr => by cases hr⟩
  exact hrun

/-- Whatever the events of different requests come between each other: every reply answers the
request that it is sent to; a request to which one is due has either got one or is in flight;
and the body of a request is what its own data makes. -/
theorem replies_do_not_cross (config : Config) {es : List GatewayEvent}
    (hbodies : Rollback.Along (Gateway.step rt) (fun t ev _ => t.readableBody rt ev = true)
      (start config) es) :
    let t := Rollback.run (Gateway.step rt) (start config) es
    (∀ reply ∈ t.replies, ∃ r, t.requests[reply.res]? = some r ∧ reply.Answers rt r) ∧
      (∀ k : ℕ, t.repliesTo k + t.inFlight k =
        if t.requests[k]?.any Request.due then 1 else 0) ∧
      ∀ (k : ℕ) (r : Request) (e : Exec), t.requests[k]? = some r → r.route = .exec e →
        r.body = bodyText rt
          (chunksOf k (Rollback.accepted (Gateway.step rt) (start config) es)) := by
  intro t
  have hdelivers : Delivers rt t := Rollback.run_induction_along
    (fun _ _ _ h hstep hbody => h.step hstep hbody) hbodies (delivers_start rt config)
  exact ⟨hdelivers.replies, hdelivers.balance, fun k => (bodies_run rt config es k).2⟩

/-- Bytes that are ASCII, and what `JSON` does with the few texts that are used here. -/
def sampleRuntime : Runtime where
  toText chunk := String.ofList (chunk.map fun b => Char.ofNat b.toNat)
  parse text :=
    if text = "null" then some .null
    else if text = "\x7b\"gameid\":\"3\"\x7d" then some (.obj [("gameid", .str "3")])
    else if text = "\x7b\"user\":\"a\"\x7d" then some (.obj [("user", .str "a")])
    else none
  stringify json :=
    match json with
    | .str s => "\"" ++ s ++ "\""
    | _ => ""
  privateToPublic key := key

def ascii (text : String) : List UInt8 := text.toList.map fun c => UInt8.ofNat c.toNat

def sampleConfig : Config := { httpEndpoint := "", chainId := "" }

/-- Two requests whose events cross: the one that came first is answered last. -/
theorem replies_do_not_cross_two :
    let es : List GatewayEvent :=
      [.request "POST" "/egggame/create", .request "POST" "/redenvelope/recv",
        .data 1 (ascii "\x7b\"user\":\"a\"\x7d"), .data 0 (ascii "\x7b\"gameid\":"),
        .data 0 (ascii "\"3\"\x7d"), .ended 0, .ended 1, .contract 1, .contract 0,
        .pushed 0 (.str "received"), .pushed 0 (.str "created")]
    let t := Rollback.run (Gateway.step sampleRuntime) (start sampleConfig) es
    (∀ reply ∈ t.replies, ∃ r, t.requests[reply.res]? = some r ∧
        reply.Answers sampleRuntime r) ∧
      t.replies.map (fun reply => (reply.res, reply.text)) =
        [(1, "\"received\""), (0, "\"created\"")] :=
  ⟨(replies_do_not_cross sampleConfig (by decide +kernel)).1, by decide +kernel⟩

/-- The response to a post to the root is never ended, and a body that is null ends the
process. -/
theorem logged_and_null_unanswered :
    let root : List GatewayEvent :=
      [.request "POST" "/", .data 0 (ascii "\x7b\"user\":\"a\"\x7d"), .ended 0]
    let null : List GatewayEvent :=
      [.request "POST" "/egggame/create", .data 0 (ascii "null"), .ended 0]
    let afterRoot := Rollback.run (Gateway.step sampleRuntime) (start sampleConfig) root
    let afterNull := Rollback.run (Gateway.step sampleRuntime) (start sampleConfig) null
    (afterRoot.requests.map Request.ended = [true] ∧ afterRoot.inFlight 0 = 0 ∧
        afterRoot.repliesTo 0 = 0) ∧
      afterNull.requests.map Request.ended = [true] ∧ afterNull.inFlight 0 = 0 ∧
        afterNull.repliesTo 0 = 0 ∧ afterNull.alive = false := by
  decide +kernel

end Gateway

end Xidata.NodeSvr
