import Xidata.Library.Precedence
import Xidata.Login.Requests

/-!
A key answers for one login: it is good until it is used or the clock has passed its deadline, and
for nothing after that.
-/

namespace Xidata.Login

open Precedence (Preceded concat_eq_append_cons)

variable {PrivateKey PublicKey Signature Permission Digest : Type} [DecidableEq PublicKey]

/-- When a login that is asked for at `now` expires. -/
def deadline (maxLoginTimeout requested : UInt32) (now : ℕ) : UInt32 :=
  min requested (UInt32.ofNat (now / 1000000) + maxLoginTimeout)

/-- Nothing in the history makes an end of a key that is good until `expires`. -/
def Untouched (pubKey : PublicKey) (expires : UInt32) (log : List (Entry PublicKey)) : Prop :=
  (∀ now, .used pubKey now ∉ log) ∧ ∀ now, .expired now ∈ log → now ≤ timePoint expires

/-- A login was started with the key, and since then nothing has made an end of it. -/
def Backed (timeout : UInt32) (log : List (Entry PublicKey)) (pubKey : PublicKey)
    (expires : UInt32) : Prop :=
  ∃ early requested started late, log = early ++ .started pubKey requested started :: late ∧
    expires = deadline timeout requested started ∧ Untouched pubKey expires late

/-! ### One call -/

section Calls

variable (c : Crypto PrivateKey PublicKey Signature Permission Digest)
  {s : LoginPlugin PrivateKey PublicKey} {expirationTime : UInt32} {now₁ now₂ : ℕ} (now₃ : ℕ)
  (privKey : PrivateKey)

theorem serve_past (hpast : ¬ now₂ < timePoint expirationTime) :
    serve c s (.start expirationTime now₁ now₂ now₃ privKey) =
      (s.expireRequests now₁, [.expired now₁]) := by
  rw [serve, LoginPlugin.startLoginRequest, if_pos hpast]
  rfl

theorem serve_full (hpast : now₂ < timePoint expirationTime)
    (hlt : ¬ (s.expireRequests now₁).requests.length <
      (s.expireRequests now₁).maxLoginRequests.toNat) :
    serve c s (.start expirationTime now₁ now₂ now₃ privKey) =
      (s.expireRequests now₁, [.expired now₁]) := by
  rw [serve, LoginPlugin.startLoginRequest, if_neg (not_not.mpr hpast)]
  dsimp only
  rw [if_pos hlt]
  rfl

theorem serve_started (hpast : now₂ < timePoint expirationTime)
    (hlt : (s.expireRequests now₁).requests.length <
      (s.expireRequests now₁).maxLoginRequests.toNat) :
    serve c s (.start expirationTime now₁ now₂ now₃ privKey) =
      ((s.expireRequests now₁).insert ⟨privKey, c.publicKey privKey,
          deadline (s.expireRequests now₁).maxLoginTimeout expirationTime now₃⟩,
        [.expired now₁, .started (c.publicKey privKey) expirationTime now₃]) := by
  rw [serve, LoginPlugin.startLoginRequest, if_neg (not_not.mpr hpast)]
  dsimp only
  rw [if_neg (not_not.mpr hlt)]
  rfl

end Calls

/-! ### One more entry -/

omit [DecidableEq PublicKey] in
theorem untouched_concat {pubKey : PublicKey} {expires : UInt32} {log : List (Entry PublicKey)}
    {entry : Entry PublicKey} : Untouched pubKey expires (log ++ [entry]) ↔
      Untouched pubKey expires log ∧ Untouched pubKey expires [entry] := by
  simp only [Untouched, List.mem_append, not_or, or_imp, forall_and]
  tauto

omit [DecidableEq PublicKey] in
theorem Backed.concat {timeout : UInt32} {log : List (Entry PublicKey)} {pubKey : PublicKey}
    {expires : UInt32} (b : Backed timeout log pubKey expires) {entry : Entry PublicKey}
    (h : Untouched pubKey expires [entry]) : Backed timeout (log ++ [entry]) pubKey expires := by
  obtain ⟨early, requested, started, late, rfl, he, untouched⟩ := b
  exact ⟨early, requested, started, late ++ [entry], by simp, he,
    untouched_concat.mpr ⟨untouched, h⟩⟩

/-- What the requests say about the history, and the history about the requests. -/
structure Kept (maxRequests timeout : UInt32) (s : LoginPlugin PrivateKey PublicKey)
    (log : List (Entry PublicKey)) : Prop where
  maxLoginRequests : s.maxLoginRequests = maxRequests
  maxLoginTimeout : s.maxLoginTimeout = timeout
  byTime : s.ByTime
  oneForKey : s.OneForKey
  bounded : s.requests.length ≤ maxRequests.toNat
  backed : ∀ r ∈ s.requests, Backed timeout log r.serverEphemeralPubKey r.expirationTime
  pending : ∀ {early late pubKey requested started},
    log = early ++ .started pubKey requested started :: late →
      (∀ requested' started', .started pubKey requested' started' ∉ early) →
        Untouched pubKey (deadline timeout requested started) late →
          ∃ r ∈ s.requests, r.serverEphemeralPubKey = pubKey ∧
            r.expirationTime = deadline timeout requested started
  used : Preceded (fun entry before => ∀ pubKey now, entry = .used pubKey now →
    ∃ expires, Backed timeout before pubKey expires ∧ now ≤ timePoint expires) log

namespace Kept

variable {maxRequests timeout : UInt32} {s : LoginPlugin PrivateKey PublicKey}
  {log : List (Entry PublicKey)}

omit [DecidableEq PublicKey] in
theorem expire (k : Kept maxRequests timeout s log) (now : ℕ) :
    Kept maxRequests timeout (s.expireRequests now) (log ++ [.expired now]) where
  maxLoginRequests := k.maxLoginRequests
  maxLoginTimeout := k.maxLoginTimeout
  byTime := k.byTime.sublist (s.expireRequests_sublist now)
  oneForKey := k.oneForKey.sublist (s.expireRequests_sublist now)
  bounded := Nat.le_trans (s.expireRequests_sublist now).length_le k.bounded
  backed := by
    intro r hr
    obtain ⟨hr, hnow⟩ := (LoginPlugin.mem_expireRequests k.byTime now r).mp hr
    refine (k.backed r hr).concat ⟨by simp, ?_⟩
    simpa using hnow
  pending := by
    intro early late pubKey requested started h fresh untouched
    rcases concat_eq_append_cons h with ⟨-, -, he⟩ | ⟨late', rfl, hlog⟩
    · cases he
    · obtain ⟨r, hr, hkey, htime⟩ := k.pending hlog fresh (untouched_concat.mp untouched).1
      have hnow : now ≤ timePoint r.expirationTime := htime ▸ untouched.2 now (by simp)
      exact ⟨r, (LoginPlugin.mem_expireRequests k.byTime now r).mpr ⟨hr, hnow⟩, hkey, htime⟩
  used := k.used.concat (by simp)

theorem insert (k : Kept maxRequests timeout s log)
    (hlt : s.requests.length < s.maxLoginRequests.toNat) (privKey : PrivateKey)
    (pubKey : PublicKey) (requested : UInt32) (started : ℕ) :
    Kept maxRequests timeout
      (s.insert ⟨privKey, pubKey, deadline s.maxLoginTimeout requested started⟩)
      (log ++ [.started pubKey requested started]) where
  maxLoginRequests := by rw [← k.maxLoginRequests]; unfold LoginPlugin.insert; split <;> rfl
  maxLoginTimeout := by rw [← k.maxLoginTimeout]; unfold LoginPlugin.insert; split <;> rfl
  byTime := k.byTime.insert _
  oneForKey := k.oneForKey.insert _
  bounded := by
    rw [k.maxLoginRequests] at hlt
    exact Nat.le_trans (s.length_insert_le _) hlt
  backed := by
    intro r hr
    rcases LoginPlugin.mem_insert.mp hr with hr | ⟨rfl, -⟩
    · exact (k.backed r hr).concat ⟨by simp, by simp⟩
    · exact ⟨log, requested, started, [], rfl, by rw [k.maxLoginTimeout], by simp, by simp⟩
  pending := by
    intro early late pubKey' requested' started' h fresh untouched
    rcases concat_eq_append_cons h with ⟨rfl, rfl, he⟩ | ⟨late', rfl, hlog⟩
    · cases he
      refine ⟨_, LoginPlugin.mem_insert.mpr (.inr ⟨rfl, ?_⟩), rfl, by rw [k.maxLoginTimeout]⟩
      -- An entry with the same key would have been started before.
      intro q hq hkey
      obtain ⟨early, requested'', started'', late, rfl, -⟩ := k.backed q hq
      exact fresh requested'' started'' (by simp [hkey])
    · obtain ⟨r, hr, hrest⟩ := k.pending hlog fresh (untouched_concat.mp untouched).1
      exact ⟨r, LoginPlugin.mem_insert.mpr (.inl hr), hrest⟩
  used := k.used.concat (by simp)

theorem erase (k : Kept maxRequests timeout s log) {r : LoginRequest PrivateKey PublicKey}
    (hr : r ∈ s.requests) {now : ℕ} (hnow : now ≤ timePoint r.expirationTime) :
    Kept maxRequests timeout (s.erase r.serverEphemeralPubKey)
      (log ++ [.used r.serverEphemeralPubKey now]) where
  maxLoginRequests := k.maxLoginRequests
  maxLoginTimeout := k.maxLoginTimeout
  byTime := k.byTime.filter _
  oneForKey := k.oneForKey.filter _
  bounded := Nat.le_trans (List.length_filter_le _ _) k.bounded
  backed := by
    intro q hq
    simp only [LoginPlugin.erase, List.mem_filter, decide_eq_true_eq] at hq
    exact (k.backed q hq.1).concat ⟨by simpa using hq.2, by simp⟩
  pending := by
    intro early late pubKey requested started h fresh untouched
    rcases concat_eq_append_cons h with ⟨-, -, he⟩ | ⟨late', rfl, hlog⟩
    · cases he
    · obtain ⟨q, hq, hkey, htime⟩ := k.pending hlog fresh (untouched_concat.mp untouched).1
      refine ⟨q, ?_, hkey, htime⟩
      have hne : q.serverEphemeralPubKey ≠ r.serverEphemeralPubKey := by
        intro he
        exact untouched.1 now (by simp [← hkey, he])
      simpa [LoginPlugin.erase] using ⟨hq, hne⟩
  used := by
    refine k.used.concat fun pubKey t he => ?_
    cases he
    exact ⟨r.expirationTime, k.backed r hr, hnow⟩

theorem serve (k : Kept maxRequests timeout s log)
    (c : Crypto PrivateKey PublicKey Signature Permission Digest)
    (e : Event PrivateKey PublicKey Signature Permission) :
    Kept maxRequests timeout (serve c s e).1 (log ++ (serve c s e).2) := by
  cases e with
  | start expirationTime now₁ now₂ now₃ privKey =>
    have ke := k.expire now₁
    -- The three readings of the clock need not agree.
    by_cases hpast : now₂ < timePoint expirationTime
    · by_cases hlt : (s.expireRequests now₁).requests.length <
          (s.expireRequests now₁).maxLoginRequests.toNat
      · have ki := ke.insert hlt privKey (c.publicKey privKey) expirationTime now₃
        rw [serve_started c now₃ privKey hpast hlt]
        simpa using ki
      · rw [serve_full c now₃ privKey hpast hlt]
        exact ke
    · rw [serve_past c now₃ privKey hpast]
      exact ke
  | finalize p now =>
    have ke := k.expire now
    unfold Login.serve LoginPlugin.finalizeLoginRequest
    cases hf : (s.expireRequests now).find p.serverEphemeralPubKey with
    | none => simpa [hf] using ke
    | some r =>
      have hr : r ∈ (s.expireRequests now).requests := List.mem_of_find?_eq_some hf
      have hkey : r.serverEphemeralPubKey = p.serverEphemeralPubKey := by
        simpa using List.find?_some hf
      have hnow := ((LoginPlugin.mem_expireRequests k.byTime now r).mp hr).2
      simpa [hf, hkey] using ke.erase hr hnow

theorem run (k : Kept maxRequests timeout s log)
    (c : Crypto PrivateKey PublicKey Signature Permission Digest)
    (es : List (Event PrivateKey PublicKey Signature Permission)) :
    Kept maxRequests timeout (run c s es).1 (log ++ (run c s es).2) := by
  induction es generalizing s log with
  | nil => simpa [Login.run] using k
  | cons e es ih => simpa [Login.run] using ih (k.serve c e)

omit [DecidableEq PublicKey] in
theorem start (maxRequests timeout : UInt32) :
    Kept maxRequests timeout
      ({ maxLoginRequests := maxRequests, maxLoginTimeout := timeout } :
        LoginPlugin PrivateKey PublicKey) [] where
  maxLoginRequests := rfl
  maxLoginTimeout := rfl
  byTime := .nil
  oneForKey := .nil
  bounded := Nat.zero_le _
  backed := by simp
  pending := by simp
  used := Precedence.preceded_nil

end Kept

/-- Only a key that is used satisfies a permission. -/
theorem used_of_permissionSatisfied {c : Crypto PrivateKey PublicKey Signature Permission Digest}
    {s : LoginPlugin PrivateKey PublicKey}
    {p : FinalizeLoginRequestParams PublicKey Signature Permission} {now : ℕ}
    {result : FinalizeLoginRequestResults PublicKey Digest}
    (h : (s.finalizeLoginRequest c p now).2 = some result) (hs : result.permissionSatisfied) :
    (serve c s (.finalize p now)).2 = [.expired now, .used p.serverEphemeralPubKey now] := by
  unfold LoginPlugin.finalizeLoginRequest at h
  cases hf : (s.expireRequests now).find p.serverEphemeralPubKey with
  | none =>
    simp only [hf, Option.some.injEq] at h
    rw [← h] at hs
    cases hs
  | some r => simp [serve, hf]

/-! ### Whole runs -/

section Runs

variable (c : Crypto PrivateKey PublicKey Signature Permission Digest)
  (maxRequests timeout : UInt32) (es : List (Event PrivateKey PublicKey Signature Permission))

/-- Keys that are numbers, each signing for its own permission. -/
def numbered : Crypto ℕ ℕ ℕ ℕ (List UInt8) where
  publicKey := (· + 100)
  sharedSecret privKey pubKey := some [UInt8.ofNat (privKey + 100), UInt8.ofNat pubKey]
  packPermission permission := [UInt8.ofNat permission]
  packSecret := id
  packData := id
  hash := id
  recover sig _ := some sig
  checkAuthorization permission keys := permission ∈ keys

end Runs

end Xidata.Login
