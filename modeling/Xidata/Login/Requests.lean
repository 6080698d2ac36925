import Mathlib.Data.List.TakeWhile
import Xidata.Login.Plugin

/-!
The requests that are pending stand in the order in which they expire, and no two are for one key;
what each operation leaves of them.
-/

namespace Xidata.Login

variable {PrivateKey PublicKey Signature Permission Digest : Type} [DecidableEq PublicKey]

theorem dropWhile_eq_filter {α : Type} {R : α → α → Prop} {p : α → Bool} {l : List α}
    (before : ∀ a b, R a b → p b → p a) (h : l.Pairwise R) : l.dropWhile p = l.filter (!p ·) := by
  induction l with
  | nil => rfl
  | cons a l ih =>
    obtain ⟨ha, hl⟩ := List.pairwise_cons.mp h
    cases hp : p a with
    | true => simp [hp, ih hl]
    | false =>
      have hn : ∀ b ∈ l, p b = false := by
        intro b hb
        by_contra hpb
        exact absurd (before a b (ha b hb) (by simpa using hpb)) (by simp [hp])
      have hf : l.filter (!p ·) = l := List.filter_eq_self.mpr fun b hb => by simp [hn b hb]
      simp [hp, hf]

namespace LoginPlugin

/-- The request that expires first stands first. -/
def ByTime (s : LoginPlugin PrivateKey PublicKey) : Prop :=
  s.requests.Pairwise fun r r' => r.expirationTime ≤ r'.expirationTime

omit [DecidableEq PublicKey] in
theorem mem_expireRequests {s : LoginPlugin PrivateKey PublicKey} (byTime : s.ByTime) (now : ℕ)
    (r : LoginRequest PrivateKey PublicKey) :
    r ∈ (s.expireRequests now).requests ↔
      r ∈ s.requests ∧ now ≤ timePoint r.expirationTime := by
  have before : ∀ a b : LoginRequest PrivateKey PublicKey, a.expirationTime ≤ b.expirationTime →
      decide (timePoint b.expirationTime < now) → decide (timePoint a.expirationTime < now) := by
    intro a b hab hb
    have hle : timePoint a.expirationTime ≤ timePoint b.expirationTime :=
      Nat.mul_le_mul_right _ (UInt32.le_iff_toNat_le.mp hab)
    exact decide_eq_true (Nat.lt_of_le_of_lt hle (of_decide_eq_true hb))
  rw [expireRequests, dropWhile_eq_filter before byTime, List.mem_filter]
  simp

omit [DecidableEq PublicKey] in
theorem expireRequests_sublist (s : LoginPlugin PrivateKey PublicKey) (now : ℕ) :
    (s.expireRequests now).requests.Sublist s.requests :=
  List.dropWhile_sublist _

theorem mem_insert {s : LoginPlugin PrivateKey PublicKey}
    {r r' : LoginRequest PrivateKey PublicKey} :
    r' ∈ (s.insert r).requests ↔ r' ∈ s.requests ∨
      r' = r ∧ ∀ q ∈ s.requests, q.serverEphemeralPubKey ≠ r.serverEphemeralPubKey := by
  unfold insert
  split
  case isTrue h =>
    obtain ⟨q, hq, hk⟩ := List.any_eq_true.mp h
    have : ¬ ∀ q ∈ s.requests, q.serverEphemeralPubKey ≠ r.serverEphemeralPubKey :=
      fun hn => hn q hq (by simpa using hk)
    simp [this]
  case isFalse h =>
    have hn : ∀ q ∈ s.requests, q.serverEphemeralPubKey ≠ r.serverEphemeralPubKey := by
      simpa using h
    have hs : r' ∈ s.requests ↔
        r' ∈ s.requests.takeWhile (·.expirationTime ≤ r.expirationTime) ∨
          r' ∈ s.requests.dropWhile (·.expirationTime ≤ r.expirationTime) := by
      conv_lhs => rw [← List.takeWhile_append_dropWhile
        (p := fun q : LoginRequest PrivateKey PublicKey => q.expirationTime ≤ r.expirationTime)
        (l := s.requests)]
      exact List.mem_append
    rw [hs]
    simp only [List.mem_append, List.mem_cons]
    tauto

theorem ByTime.insert {s : LoginPlugin PrivateKey PublicKey} (byTime : s.ByTime)
    (r : LoginRequest PrivateKey PublicKey) : (s.insert r).ByTime := by
  have before : ∀ a b : LoginRequest PrivateKey PublicKey, a.expirationTime ≤ b.expirationTime →
      decide (b.expirationTime ≤ r.expirationTime) →
        decide (a.expirationTime ≤ r.expirationTime) := by
    intro a b hab hb
    exact decide_eq_true (UInt32.le_trans hab (of_decide_eq_true hb))
  unfold LoginPlugin.insert
  split
  case isTrue => exact byTime
  case isFalse =>
    have hlate : ∀ b ∈ s.requests.dropWhile (·.expirationTime ≤ r.expirationTime),
        r.expirationTime ≤ b.expirationTime := by
      intro b hb
      rw [dropWhile_eq_filter before byTime, List.mem_filter] at hb
      have hlt : ¬ b.expirationTime ≤ r.expirationTime := by simpa using hb.2
      exact UInt32.le_of_lt (UInt32.not_le.mp hlt)
    have hearly : ∀ a ∈ s.requests.takeWhile (·.expirationTime ≤ r.expirationTime),
        a.expirationTime ≤ r.expirationTime := by
      intro a ha
      simpa using List.mem_takeWhile_imp ha
    refine List.pairwise_append.mpr ⟨byTime.sublist (List.takeWhile_sublist _), ?_, ?_⟩
    · exact List.pairwise_cons.mpr ⟨hlate, byTime.sublist (List.dropWhile_sublist _)⟩
    · intro a ha b hb
      rcases List.mem_cons.mp hb with rfl | hb
      · exact hearly a ha
      · exact UInt32.le_trans (hearly a ha) (hlate b hb)

/-- No two requests are for one key. -/
def OneForKey (s : LoginPlugin PrivateKey PublicKey) : Prop :=
  s.requests.Pairwise fun r r' => r.serverEphemeralPubKey ≠ r'.serverEphemeralPubKey

theorem OneForKey.insert {s : LoginPlugin PrivateKey PublicKey} (oneForKey : s.OneForKey)
    (r : LoginRequest PrivateKey PublicKey) : (s.insert r).OneForKey := by
  unfold LoginPlugin.insert
  split
  case isTrue => exact oneForKey
  case isFalse h =>
    have hn : ∀ q ∈ s.requests, q.serverEphemeralPubKey ≠ r.serverEphemeralPubKey := by
      simpa using h
    have hp : (r :: s.requests).Pairwise fun q q' =>
        q.serverEphemeralPubKey ≠ q'.serverEphemeralPubKey :=
      List.pairwise_cons.mpr ⟨fun q hq => (hn q hq).symm, oneForKey⟩
    refine (List.Perm.pairwise_iff (fun hab => Ne.symm hab) ?_).mp hp
    conv_lhs => rw [← List.takeWhile_append_dropWhile
      (p := fun q : LoginRequest PrivateKey PublicKey => q.expirationTime ≤ r.expirationTime)
      (l := s.requests)]
    exact List.perm_middle.symm

theorem length_insert_le (s : LoginPlugin PrivateKey PublicKey)
    (r : LoginRequest PrivateKey PublicKey) :
    (s.insert r).requests.length ≤ s.requests.length + 1 := by
  unfold insert
  split
  case isTrue => exact Nat.le_succ _
  case isFalse =>
    have h := congrArg List.length (List.takeWhile_append_dropWhile
      (p := fun q : LoginRequest PrivateKey PublicKey => q.expirationTime ≤ r.expirationTime)
      (l := s.requests))
    simp only [List.length_append, List.length_cons] at h ⊢
    omega

end LoginPlugin

end Xidata.Login
