import Mathlib.Data.List.Induction
import Xidata.Identity.Certifications

/-!
Claimed identities.  An account claims an identity by certifying itself as its owner, and the
claim is kept apart from the certification.  A value about the certifier changes both; one
about somebody else changes the certification alone, and may take away what the claim was
made with.
-/

namespace Xidata.Identity

open Eosiolib (AccountName Bytes)

/-- Every claim has the certification that it is made with, and a certifier has one row at
most for a property of an identity. -/
structure ClaimsBacked (s : State) : Prop where
  backed : ∀ acnt identity, s.accounts.find acnt = some identity →
    Certified (s.certs identity) owner acnt (ownerData acnt)
  one : ∀ identity, OneRowEach (s.certs identity)

def lastOwner (values : List CertValue) : Option CertValue :=
  values.reverse.find? fun value => value.property = owner

/-- The last value of an owner that is about the certifier. -/
def lastSelf (certifier : AccountName) (values : List CertValue) : Option CertValue :=
  values.reverse.find? fun value => value.property = owner ∧ accountOf value.data = certifier

/-- If the last owner value of an action is about somebody else, then the certifier does not
claim the identity: by the last value about itself it gives the claim up, or there is no such
value and it did not claim the identity before. -/
def KeepsClaim (s : State) : Action → Prop
  | .certprop _ certifier identity values => ∀ last, lastOwner values = some last →
    accountOf last.data ≠ certifier → match lastSelf certifier values with
      | some value => value.confidence = 0
      | none => s.accounts.find certifier ≠ some identity
  | _ => True

variable {s s' : State} {certifier acnt : AccountName} {identity : IdentityName}

theorem accountOf_eq_iff {data : Bytes} (h : data.length = 8) :
    accountOf data = acnt ↔ data = ownerData acnt := by
  have hlt : ByteCode.ofLittleEndian data < 2 ^ 64 := by
    have hbytes := ByteCode.ofLittleEndian_lt data
    rw [h] at hbytes
    omega
  have hacnt := acnt.toNat_lt
  rw [ownerData, eq_comm (a := data), ByteCode.littleEndian_eq_iff (by omega) h,
    ← UInt64.toNat_inj, accountOf, UInt64.toNat_ofNat', Nat.mod_eq_of_lt hlt, eq_comm]

/-! ### The values of an action -/

theorem lastOwner_concat (values : List CertValue) (value : CertValue) :
    lastOwner (values ++ [value]) =
      if value.property = owner then some value else lastOwner values := by
  rw [lastOwner, List.reverse_concat, List.find?_cons]
  by_cases h : value.property = owner
  · simp [h]
  · simp [h, lastOwner]

theorem lastSelf_concat (values : List CertValue) (value : CertValue) :
    lastSelf certifier (values ++ [value]) =
      if value.property = owner ∧ accountOf value.data = certifier then some value
      else lastSelf certifier values := by
  rw [lastSelf, List.reverse_concat, List.find?_cons]
  by_cases h : value.property = owner ∧ accountOf value.data = certifier
  · simp [h]
  · rw [decide_eq_false h, if_neg h, lastSelf]

theorem lastSelf_of_lastOwner {values : List CertValue} {last : CertValue}
    (h : lastOwner values = some last) (hself : accountOf last.data = certifier) :
    lastSelf certifier values = some last := by
  induction values using List.reverseRecOn with
  | nil => cases h
  | append_singleton values value ih =>
      rw [lastOwner_concat] at h
      rw [lastSelf_concat]
      split at h
      · rename_i howner
        obtain rfl := Option.some.inj h
        rw [if_pos ⟨howner, hself⟩]
      · rename_i howner
        rw [if_neg fun hboth => howner hboth.1, ih h]

theorem lastSelf_eq_none_of {values : List CertValue} (h : lastOwner values = none) :
    lastSelf certifier values = none := by
  have hnone := List.find?_eq_none.mp h
  refine List.find?_eq_none.mpr fun value hvalue => ?_
  have howner := hnone value hvalue
  simp only [decide_eq_true_eq] at howner ⊢
  exact fun hboth => howner hboth.1

theorem lastOwner_mem {values : List CertValue} {last : CertValue}
    (h : lastOwner values = some last) : last ∈ values ∧ last.property = owner := by
  refine ⟨List.mem_reverse.mp (List.mem_of_find?_eq_some h), ?_⟩
  have hlast := List.find?_some (p := fun value : CertValue => decide (value.property = owner)) h
  exact of_decide_eq_true hlast

/-- What the values of an action come to. -/
structure Certifies (identity : IdentityName) (certifier : AccountName) (values : List CertValue)
    (w w' : Writing) : Prop where
  wellKept : WellKept w'.certs
  others : ∀ property certifier' data, certifier' ≠ certifier →
    (Certified w'.certs property certifier' data ↔ Certified w.certs property certifier' data)
  own : ∀ data, Certified w'.certs owner certifier data ↔ match lastOwner values with
    | some last => last.confidence ≠ 0 ∧ data = last.data
    | none => Certified w.certs owner certifier data
  length : ∀ value ∈ values, value.property = owner → value.data.length = 8
  accounts : ∀ acnt, w'.accounts.find acnt =
    if acnt = certifier then match lastSelf certifier values with
      | some value => if value.confidence ≠ 0 then some identity else none
      | none => w.accounts.find acnt
    else w.accounts.find acnt

theorem find_claimAfter (value : CertValue) (accounts : OrderedTable AccountName IdentityName)
    (acnt : AccountName) : (claimAfter identity certifier value accounts).find acnt =
      if acnt = certifier ∧ value.property = owner ∧ accountOf value.data = certifier then
        if value.confidence ≠ 0 then some identity else none
      else accounts.find acnt := by
  unfold claimAfter
  by_cases hself : value.property = owner ∧ accountOf value.data = certifier
  · by_cases hconfidence : value.confidence ≠ 0
    · rw [if_pos hself, if_pos hconfidence]
      by_cases hacnt : acnt = certifier
      · rw [hacnt, OrderedTable.find_set_self, if_pos ⟨rfl, hself⟩, if_pos hconfidence]
      · rw [OrderedTable.find_set_of_ne _ hacnt, if_neg fun hboth => hacnt hboth.1]
    · rw [if_pos hself, if_neg hconfidence]
      by_cases hacnt : acnt = certifier
      · rw [hacnt, OrderedTable.find_erase_self, if_pos ⟨rfl, hself⟩, if_neg hconfidence]
      · rw [OrderedTable.find_erase_of_ne _ hacnt, if_neg fun hboth => hacnt hboth.1]
  · rw [if_neg hself, if_neg fun hboth => hself hboth.2]

theorem certifies_foldlM {b : Bool} {values : List CertValue} {w w' : Writing}
    (ht : WellKept w.certs) (h : values.foldlM (certValue identity certifier b) w = .ok w') :
    Certifies identity certifier values w w' := by
  induction values using List.reverseRecOn generalizing w' with
  | nil =>
      cases h
      exact ⟨ht, fun _ _ _ _ => Iff.rfl, fun _ => Iff.rfl, fun _ hmem => (by cases hmem),
        fun _ => (ite_self _).symm⟩
  | append_singleton values value ih =>
      rw [List.foldlM_append, Rollback.bind_eq_ok] at h
      obtain ⟨w₁, hvalues, hvalue⟩ := h
      rw [Rollback.foldlM_singleton_eq_ok] at hvalue
      have hbefore := ih hvalues
      obtain ⟨hwritten, hlength, haccounts⟩ := certValue_spec hbefore.wellKept hvalue
      refine ⟨hwritten.wellKept hbefore.wellKept, fun property certifier' data hne => ?_,
        fun data => ?_, fun v hv howner => ?_, fun acnt => ?_⟩
      · rw [hwritten.certified_of_ne fun hboth => hne hboth.2]
        exact hbefore.others property certifier' data hne
      · rw [lastOwner_concat]
        by_cases howner : value.property = owner
        · rw [← howner, hwritten.certified_self]
          simp only [if_true]
          by_cases hconfidence : value.confidence ≠ 0
          · simp [hconfidence, eq_comm]
          · simp [hconfidence]
        · rw [if_neg howner, hwritten.certified_of_ne fun hboth => howner hboth.1.symm]
          exact hbefore.own data
      · obtain hmem | hmem := List.mem_append.mp hv
        · exact hbefore.length v hmem howner
        · rw [List.mem_singleton.mp hmem] at howner ⊢
          exact hlength howner
      · rw [haccounts, find_claimAfter, hbefore.accounts, lastSelf_concat]
        by_cases hacnt : acnt = certifier
        · by_cases hself : value.property = owner ∧ accountOf value.data = certifier
          · rw [if_pos ⟨hacnt, hself⟩, if_pos hacnt, if_pos hself]
          · rw [if_neg fun hboth => hself hboth.2, if_neg hself]
        · rw [if_neg fun hboth => hacnt hboth.1, if_neg hacnt, if_neg hacnt]

/-! ### One action -/

/-- The rows are kept well, so that they are found; and every claim has its certification. -/
structure Kept (s : State) : Prop where
  wellKept : ∀ identity, WellKept (s.certs identity)
  backed : ∀ acnt identity, s.accounts.find acnt = some identity →
    Certified (s.certs identity) owner acnt (ownerData acnt)

theorem Kept.claimsBacked (h : Kept s) : ClaimsBacked s :=
  ⟨h.backed, fun identity => (h.wellKept identity).one⟩

theorem Kept.of_eq (h : Kept s) (hcerts : s'.certs = s.certs)
    (haccounts : s'.accounts = s.accounts) : Kept s' := by
  constructor
  · rw [hcerts]
    exact h.wellKept
  · rw [hcerts, haccounts]
    exact h.backed

theorem certprop_eq_ok {c : Ctx} {billStorageTo : AccountName} {values : List CertValue}
    (h : certprop c s billStorageTo certifier identity values = .ok s') :
    ∃ b w, values.foldlM (certValue identity certifier b) ⟨s.certs identity, none, s.accounts⟩ =
        .ok w ∧
      s' = { s with certs := Function.update s.certs identity w.certs, accounts := w.accounts } := by
  unfold certprop at h
  rw [Rollback.bind_eq_ok] at h
  obtain ⟨-, -, h⟩ := h
  have hrest : (do
      eosioAssert (s.idents.find identity ≠ none) "identity does not exist"
      let w ← values.foldlM (certValue identity certifier (s.isTrusted c.activeProducers certifier))
        ⟨s.certs identity, none, s.accounts⟩
      pure { s with certs := Function.update s.certs identity w.certs, accounts := w.accounts }) =
      (Except.ok s' : Result State) := by
    dsimp only at h
    split at h
    · rw [Rollback.bind_eq_ok] at h
      obtain ⟨-, -, h⟩ := h
      exact h
    · exact h
  rw [Rollback.bind_eq_ok] at hrest
  obtain ⟨-, -, hrest⟩ := hrest
  rw [Rollback.bind_eq_ok] at hrest
  obtain ⟨w, hvalues, hs'⟩ := hrest
  exact ⟨_, w, hvalues, (Except.ok.inj hs').symm⟩

theorem Certifies.find_self {values : List CertValue} {w w' : Writing}
    (h : Certifies identity certifier values w w') : w'.accounts.find certifier =
      match lastSelf certifier values with
      | some value => if value.confidence ≠ 0 then some identity else none
      | none => w.accounts.find certifier := by
  rw [h.accounts, if_pos rfl]

/-- The certifier has the certification for its claim exactly if the values keep the claim. -/
theorem Certifies.own_iff {values : List CertValue} {w : Writing} {billStorageTo : AccountName}
    (h : Certifies identity certifier values ⟨s.certs identity, none, s.accounts⟩ w)
    (hs : s.accounts.find certifier = some identity →
      Certified (s.certs identity) owner certifier (ownerData certifier)) :
    (w.accounts.find certifier = some identity →
        Certified w.certs owner certifier (ownerData certifier)) ↔
      KeepsClaim s (.certprop billStorageTo certifier identity values) := by
  rw [h.own, h.find_self]
  cases hlast : lastOwner values with
  | none =>
      rw [lastSelf_eq_none_of hlast]
      exact iff_of_true hs fun last hsome => by rw [hlast] at hsome; cases hsome
  | some last =>
      obtain ⟨hmem, howner⟩ := lastOwner_mem hlast
      have habout : accountOf last.data = certifier ↔ last.data = ownerData certifier :=
        accountOf_eq_iff (h.length last hmem howner)
      by_cases hself : accountOf last.data = certifier
      · rw [lastSelf_of_lastOwner hlast hself]
        refine iff_of_true (fun hclaim => ?_) fun last' hsome hne => ?_
        · refine ⟨fun hconfidence => ?_, (habout.mp hself).symm⟩
          simp [hconfidence] at hclaim
        · rw [hlast] at hsome
          cases hsome
          exact absurd hself hne
      · have hdata : ownerData certifier ≠ last.data := fun heq => hself (habout.mpr heq.symm)
        have hkeeps : KeepsClaim s (.certprop billStorageTo certifier identity values) ↔
            match lastSelf certifier values with
            | some value => value.confidence = 0
            | none => s.accounts.find certifier ≠ some identity := by
          constructor
          · intro hkeep
            exact hkeep last hlast hself
          · intro hkeep last' hsome _
            exact hkeep
        rw [hkeeps]
        cases lastSelf certifier values with
        | none => simp [hdata]
        | some value => simp [hdata]

theorem kept_certprop_iff {c : Ctx} {billStorageTo : AccountName} {values : List CertValue}
    (h : Kept s) (hstep : certprop c s billStorageTo certifier identity values = .ok s') :
    (∀ i, WellKept (s'.certs i)) ∧
      ((∀ acnt i, s'.accounts.find acnt = some i →
          Certified (s'.certs i) owner acnt (ownerData acnt)) ↔
        KeepsClaim s (.certprop billStorageTo certifier identity values)) := by
  obtain ⟨b, w, hvalues, rfl⟩ := certprop_eq_ok hstep
  have hcertifies := certifies_foldlM (h.wellKept identity) hvalues
  have hself : (Function.update s.certs identity w.certs) identity = w.certs :=
    Function.update_self ..
  have hother {i : IdentityName} (hi : i ≠ identity) :
      (Function.update s.certs identity w.certs) i = s.certs i := Function.update_of_ne hi ..
  dsimp only
  refine ⟨fun i => ?_, ?_⟩
  · by_cases hi : i = identity
    · rw [hi, hself]
      exact hcertifies.wellKept
    · rw [hother hi]
      exact h.wellKept i
  rw [← hcertifies.own_iff (h.backed certifier identity)]
  constructor
  · intro hbacked hclaim
    have hcertified := hbacked certifier identity hclaim
    rw [hself] at hcertified
    exact hcertified
  · intro hown acnt i hclaim
    by_cases hacnt : acnt = certifier
    · subst hacnt
      by_cases hi : i = identity
      · subst hi
        rw [hself]
        exact hown hclaim
      · -- The claim of another identity was there before.
        rw [hother hi]
        rw [hcertifies.find_self] at hclaim
        split at hclaim
        · split at hclaim
          · exact absurd (Option.some.inj hclaim).symm hi
          · cases hclaim
        · exact h.backed acnt i hclaim
    · rw [hcertifies.accounts, if_neg hacnt] at hclaim
      have hbefore := h.backed acnt i hclaim
      by_cases hi : i = identity
      · subst hi
        rw [hself, hcertifies.others owner acnt _ hacnt]
        exact hbefore
      · rw [hother hi]
        exact hbefore

theorem create_eq_ok {c : Ctx} {creator : AccountName} (h : create c s creator identity = .ok s') :
    s'.certs = s.certs ∧ s'.accounts = s.accounts := by
  simp only [create, Rollback.bind_eq_ok, Rollback.pure_eq_ok] at h
  obtain ⟨-, -, -, -, -, -, rfl⟩ := h
  exact ⟨rfl, rfl⟩

theorem settrust_eq_ok {c : Ctx} {trustor trusting : AccountName} {trust : UInt8}
    (h : settrust c s trustor trusting trust = .ok s') :
    s'.certs = s.certs ∧ s'.accounts = s.accounts := by
  unfold settrust at h
  rw [Rollback.bind_eq_ok] at h
  obtain ⟨-, -, h⟩ := h
  dsimp only at h
  split at h
  · cases h
    exact ⟨rfl, rfl⟩
  · split at h
    · cases h
      exact ⟨rfl, rfl⟩
    · cases h
      exact ⟨rfl, rfl⟩

theorem step_kept_iff {e : Event} (h : Kept s) (hstep : step s e = .ok s') :
    (∀ i, WellKept (s'.certs i)) ∧
      ((∀ acnt i, s'.accounts.find acnt = some i →
          Certified (s'.certs i) owner acnt (ownerData acnt)) ↔ KeepsClaim s e.action) := by
  obtain ⟨c, action⟩ := e
  have hsame (heq : s'.certs = s.certs ∧ s'.accounts = s.accounts) : Kept s' :=
    h.of_eq heq.1 heq.2
  cases action with
  | create creator identity =>
      have hs' := hsame (create_eq_ok hstep)
      exact ⟨hs'.wellKept, iff_of_true hs'.backed trivial⟩
  | certprop billStorageTo certifier identity values => exact kept_certprop_iff h hstep
  | settrust trustor trusting trust =>
      have hs' := hsame (settrust_eq_ok hstep)
      exact ⟨hs'.wellKept, iff_of_true hs'.backed trivial⟩

/-! ### Runs -/

theorem kept_init : Kept State.init where
  wellKept _ := ⟨fun _ _ _ _ h => (by cases h), fun _ _ h => (by cases h)⟩
  backed _ _ h := by cases h

/-- In a run of actions by any accounts and under any active producers, every claim is backed
and every certifier has one row at most for a property, in every state, exactly if every action
keeps the claim of its certifier. -/
theorem claimsBacked_iff (es : List Event) :
    (∀ t ∈ Rollback.trace step State.init es, ClaimsBacked t) ↔
      Rollback.Along step (fun t e _ => KeepsClaim t e.action) State.init es := by
  refine Rollback.trace_iff_along (fun t ht => Kept.claimsBacked ht) ?_ ?_ kept_init
  · intro t e t' ht hstep hkeeps
    have hspec := step_kept_iff ht hstep
    exact ⟨hspec.1, hspec.2.mpr hkeeps⟩
  · intro t e t' ht hstep hbacked
    exact (step_kept_iff ht hstep).2.mp hbacked.backed

/-- The account 1 claims the identity 7 and then certifies that the account 2 owns it. -/
theorem claim_overwritten :
    let c : Ctx := ⟨[1], []⟩
    let es : List Event :=
      [⟨c, .create 1 7⟩, ⟨c, .certprop 1 1 7 [{ property := owner, data := ownerData 1 }]⟩,
        ⟨c, .certprop 1 1 7 [{ property := owner, data := ownerData 2 }]⟩]
    let t := Rollback.run step State.init es
    t.accounts.find 1 = some 7 ∧
      (t.certs 7).rows.map (fun q => (q.2.certifier, q.2.data)) = [(1, ownerData 2)] ∧
      ¬∀ (es : List Event), ∀ u ∈ Rollback.trace step State.init es, ClaimsBacked u := by
  intro c es t
  have hclaim : t.accounts.find 1 = some 7 := by decide +kernel
  have hrows : (t.certs 7).rows.map (fun q => (q.2.certifier, q.2.data)) = [(1, ownerData 2)] := by
    decide +kernel
  refine ⟨hclaim, hrows, fun h => ?_⟩
  obtain ⟨id, row, hfind, -, hcertifier, hdata⟩ :=
    (h es t (Rollback.run_mem_trace _ _)).backed 1 7 hclaim
  have hmem := List.mem_map_of_mem (f := fun q : UInt64 × CertRow => (q.2.certifier, q.2.data))
    (OrderedTable.find_eq_some.mp hfind)
  rw [hrows, List.mem_singleton] at hmem
  have hne : ownerData 1 ≠ ownerData 2 := by decide
  exact hne (hdata.symm.trans (congrArg Prod.snd hmem))

end Xidata.Identity
