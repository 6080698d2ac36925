import Mathlib.Data.List.TakeWhile
import Xidata.Library.Rollback
import Xidata.Net.NodePair

/-!
Of two links between two nodes, which is told to go away as a duplicate.  Both nodes
compare the sums of the times of the handshakes, so that they never tell both.  A node
that has not got the first handshake of the other link yet does not compare, so that both
may be left.
-/

namespace Xidata.Net

namespace NodePair

variable {P : Parties} {s : NodePair} {l : Side}

/-! ### What is told -/

/-- `d` processes the first handshake. -/
structure Handles (P : Parties) (s : NodePair) (d : End) (s' : NodePair) : Prop where
  fresh : d ∉ s.processed
  untold : d ∉ s.told
  processed : s'.processed = s.processed ++ [d]
  told : s'.told = if s.verdict d (P.hello d.peer) then s.told ++ [d] else s.told
  dialer : ∀ l, d = .dialer l → s.conn d = dialing P l
  acceptor : ∀ l, d = .acceptor l → s.conn d = Connection.ofSocket

theorem receive_history (e : End) (msg : HandshakeMessage) :
    (s.receive P e msg).processed = s.processed ++ [e] ∧
      (s.receive P e msg).told = if s.verdict e msg then s.told ++ [e] else s.told := by
  have hverdict : ({ s with processed := s.processed ++ [e] } : NodePair).verdict e msg =
      s.verdict e msg := rfl
  unfold receive
  dsimp only
  rw [hverdict]
  cases s.verdict e msg with
  | true => exact ⟨rfl, rfl⟩
  | false =>
      rw [if_neg Bool.false_ne_true, if_neg Bool.false_ne_true]
      split <;> exact ⟨rfl, rfl⟩

/-- A handshake on the wire is the first one that is processed. -/
theorem handles_deliver {e : End} (h : Phase P e.link (s.view e.link)) {msg : HandshakeMessage}
    {rest : List NetMessage} (hw : s.wire e = .handshake msg :: rest) :
    Handles P s e (s.deliver P e (.handshake msg) rest) := by
  generalize hv : s.view e.link = v at h
  have hview := hv
  simp only [view] at hview
  have hmem : NetMessage.handshake msg ∈ s.wire e := hw ▸ List.mem_cons_self
  obtain ⟨hprocessed, htold⟩ := receive_history (P := P) (s := s.setWire e rest) e msg
  obtain heq | heq := e.eq_dialer_or_acceptor
  · have hwire : s.wire e = v.toDialer := by rw [← hv, heq]; rfl
    have hconn : s.conn e = v.dialer := by rw [← hv, heq]; rfl
    have hdone : v.dialerDone = decide (e ∈ s.processed) := by rw [← hv, heq]; rfl
    have huntold : v.dialerTold = decide (e ∈ s.told) := by rw [← hv, heq]; rfl
    cases h with
    | ended h => exact absurd (hwire ▸ hmem) (h.toDialer msg)
    | undialed hc hc' => rw [hwire] at hw; cases hw
    | opening => rw [hwire] at hw; cases hw
    | settled => rw [hwire] at hw; cases hw
    | replied =>
        have hmsg : msg = P.hello e.peer := by
          rw [hwire] at hw
          cases hw
          rw [heq]
          rfl
        subst hmsg
        refine ⟨of_decide_eq_false hdone.symm, of_decide_eq_false huntold.symm, hprocessed, htold,
          fun l hl => ?_, fun l hl => ?_⟩
        · rw [hconn, hl]
          rfl
        · exact absurd (hl.symm.trans heq) (End.acceptor_ne_dialer l _)
  · have hwire : s.wire e = v.toAcceptor := by rw [← hv, heq]; rfl
    have hconn : s.conn e = v.acceptor := by rw [← hv, heq]; rfl
    have hdone : v.acceptorDone = decide (e ∈ s.processed) := by rw [← hv, heq]; rfl
    have huntold : v.acceptorTold = decide (e ∈ s.told) := by rw [← hv, heq]; rfl
    cases h with
    | ended h => exact absurd (hwire ▸ hmem) (h.toAcceptor msg)
    | undialed hc hc' => rw [hwire] at hw; cases hw
    | replied => rw [hwire] at hw; cases hw
    | settled => rw [hwire] at hw; cases hw
    | opening =>
        have hmsg : msg = P.hello e.peer := by
          rw [hwire] at hw
          cases hw
          rw [heq, End.peer_acceptor]
          rfl
        subst hmsg
        refine ⟨of_decide_eq_false hdone.symm, of_decide_eq_false huntold.symm, hprocessed, htold,
          fun l hl => ?_, fun l hl => ?_⟩
        · exact absurd (heq.symm.trans hl) (End.acceptor_ne_dialer _ l)
        · exact hconn

/-- A step processes a first handshake or leaves what was told and processed. -/
theorem step_history {s' : NodePair} {e : LinkEvent} (h : ∀ l, Phase P l (s.view l))
    (hstep : s.step P e = .ok s') :
    (s'.processed = s.processed ∧ s'.told = s.told) ∨ ∃ d, Handles P s d s' := by
  cases e with
  | dial l =>
      rw [step] at hstep
      split at hstep
      · cases hstep
      · cases hstep
        exact .inl ⟨rfl, rfl⟩
  | hangUp e =>
      rw [step] at hstep
      split at hstep
      · cases hstep
        exact .inl ⟨rfl, rfl⟩
      · cases hstep
  | deliver e =>
      rw [step] at hstep
      split at hstep
      · cases hwire : s.wire e with
        | nil =>
            rw [hwire] at hstep
            cases hstep
        | cons m rest =>
            rw [hwire] at hstep
            cases hstep
            cases m with
            | handshake msg => exact .inr ⟨e, handles_deliver (h e.link) hwire⟩
            | _ => exact .inl ⟨rfl, rfl⟩
      · cases hstep

/-- An end of the link has told the other one to go away. -/
def Told (s : NodePair) (l : Side) : Prop := .dialer l ∈ s.told ∨ .acceptor l ∈ s.told

/-- `e` comes before `d` in the list. -/
def Before (e d : End) (es : List End) : Prop := e ∈ es.takeWhile (· ≠ d)

instance (e d : End) (es : List End) : Decidable (Before e d es) :=
  inferInstanceAs (Decidable (e ∈ _))

theorem before_append_of_mem {e d x : End} {es : List End} (h : d ∈ es) :
    Before e d (es ++ [x]) ↔ Before e d es := by
  have hlt : (es.takeWhile (· ≠ d)).length ≠ es.length := fun heq => by
    have hall := List.takeWhile_eq_self_iff.mp
      ((List.takeWhile_prefix (· ≠ d)).eq_of_length heq) d h
    simp at hall
  rw [Before, Before, List.takeWhile_append, if_neg hlt]

theorem before_append_self {e d : End} {es : List End} (h : d ∉ es) :
    Before e d (es ++ [d]) ↔ e ∈ es := by
  have hall : es.takeWhile (· ≠ d) = es := List.takeWhile_eq_self_iff.mpr fun x hx => by
    have hne : x ≠ d := fun heq => h (heq ▸ hx)
    simpa using hne
  rw [Before, List.takeWhile_append, hall, if_pos rfl]
  simp

/-- The dialer of the link with the larger sum tells the other end to go away if and only if
it has processed the first handshake of the other link by then; the acceptor does so only
when the first handshake alone is later than both of the other link. -/
structure Sound (P : Parties) (s : NodePair) : Prop where
  phase : ∀ l, Phase P l (s.view l)
  dialer : ∀ l, .dialer l ∈ s.told → P.sum l.other < P.sum l
  acceptor : ∀ l, .acceptor l ∈ s.told → P.sum l.other < P.time (.dialer l)
  answered : ∀ l, .dialer l ∈ s.processed → s.Told l.other ∨
    (.dialer l ∈ s.told ↔
      P.sum l.other < P.sum l ∧ Before (.acceptor l.other) (.dialer l) s.processed)

theorem Sound.init : Sound P {} where
  phase _ := .undialed rfl rfl
  dialer _ h := by cases h
  acceptor _ h := by cases h
  answered _ h := by cases h

theorem Handles.told_cases {s' : NodePair} {d : End} (h : Handles P s d s') :
    s.verdict d (P.hello d.peer) = true ∧ s'.told = s.told ++ [d] ∨
      s.verdict d (P.hello d.peer) = false ∧ s'.told = s.told := by
  have htold := h.told
  cases hverdict : s.verdict d (P.hello d.peer) with
  | true =>
      rw [hverdict] at htold
      exact .inl ⟨rfl, htold⟩
  | false =>
      rw [hverdict] at htold
      exact .inr ⟨rfl, htold⟩

/-- The verdict of a dialer about the reply. -/
theorem Sound.dialer_told (h : Sound P s) {s' : NodePair} (hd : Handles P s (.dialer l) s')
    (hverdict : s.verdict (.dialer l) (P.hello (.acceptor l)) = true) : P.sum l.other < P.sum l := by
  rw [verdict, hd.dialer l rfl, Bool.and_eq_true, End.sibling_dialer] at hverdict
  exact dialer_verdict (h.phase l.other).named.2 hverdict.2

theorem Sound.acceptor_told (h : Sound P s) {s' : NodePair} (hd : Handles P s (.acceptor l) s')
    (hverdict : s.verdict (.acceptor l) (P.hello (.dialer l)) = true) :
    P.sum l.other < P.time (.dialer l) := by
  rw [verdict, hd.acceptor l rfl, Bool.and_eq_true, End.sibling_acceptor] at hverdict
  exact acceptor_verdict (h.phase l.other).named.1 hverdict.2

/-- While the other link is not told to go away, the verdict of a dialer depends on the sums
and on whether it has processed the first handshake of that link. -/
theorem Sound.dialer_verdict_iff (h : Sound P s) {s' : NodePair} (hd : Handles P s (.dialer l) s')
    (hother : ¬ s.Told l.other) :
    s.verdict (.dialer l) (P.hello (.acceptor l)) = true ↔
      P.sum l.other < P.sum l ∧ .acceptor l.other ∈ s.processed := by
  have hphase := h.phase l.other
  generalize hv : s.view l.other = v at hphase
  have hcheck : s.conn (.acceptor l.other) = v.acceptor := by rw [← hv]; rfl
  have hdone : decide (.acceptor l.other ∈ s.processed) = v.acceptorDone := by rw [← hv]; rfl
  rw [← decide_eq_true_iff (p := .acceptor l.other ∈ s.processed), hdone]
  have heq : s.verdict (.dialer l) (P.hello (.acceptor l)) =
      (dialing P l).duplicateOf v.acceptor (P.hello (.acceptor l)) := by
    rw [verdict, hd.dialer l rfl, End.sibling_dialer, hcheck]
    rw [dialing_checksDuplicates, Bool.true_and]
  rw [heq]
  have hgreeted : (dialing P l).duplicateOf (replying P l.other) (P.hello (.acceptor l)) = true ↔
      P.sum l.other < P.sum l :=
    ⟨dialer_verdict .replying, dialer_verdict_replying⟩
  cases hphase with
  | undialed hc hc' =>
      rename_i c' check
      have hclosed : check.connected = false := by
        rw [Connection.connected, hc', Bool.false_and]
      rw [duplicateOf_not_connected hclosed]
      simp
  | opening =>
      rw [duplicateOf_not_connected rfl]
      simp
  | replied =>
      rw [hgreeted]
      simp
  | settled =>
      rw [hgreeted]
      simp
  | ended hended =>
      refine absurd ?_ hother
      rw [← hv] at hended
      exact hended.told.imp of_decide_eq_true of_decide_eq_true

theorem mem_told_of_ne {s' : NodePair} {d e : End} (h : Handles P s d s') (hne : e ≠ d) :
    e ∈ s'.told ↔ e ∈ s.told := by
  obtain ⟨-, htold⟩ | ⟨-, htold⟩ := h.told_cases
  · rw [htold, List.mem_append, List.mem_singleton, or_iff_left hne]
  · rw [htold]

theorem mem_told_self {s' : NodePair} {d : End} (h : Handles P s d s') :
    d ∈ s'.told ↔ s.verdict d (P.hello d.peer) = true := by
  obtain ⟨hverdict, htold⟩ | ⟨hverdict, htold⟩ := h.told_cases
  · rw [htold, hverdict]
    simp
  · rw [htold, hverdict]
    exact ⟨fun hd => absurd hd h.untold, fun hd => by cases hd⟩

theorem Handles.told_mono {s' : NodePair} {d : End} (h : Handles P s d s') (l : Side) :
    s.Told l → s'.Told l := by
  have hmono : ∀ e, e ∈ s.told → e ∈ s'.told := fun e he => by
    by_cases hne : e = d
    · exact absurd (hne ▸ he) h.untold
    · exact (mem_told_of_ne h hne).mpr he
  exact Or.imp (hmono _) (hmono _)

theorem Sound.step {s' : NodePair} {e : LinkEvent} (h : Sound P s) (hstep : s.step P e = .ok s') :
    Sound P s' := by
  have hphase : ∀ l, Phase P l (s'.view l) := fun l => phase_step (h.phase l) hstep
  obtain ⟨hprocessed, htold⟩ | ⟨d, hd⟩ := step_history h.phase hstep
  · refine ⟨hphase, ?_, ?_, ?_⟩
    · rw [htold]
      exact h.dialer
    · rw [htold]
      exact h.acceptor
    · intro l hl
      rw [hprocessed] at hl ⊢
      rw [Told, htold]
      exact h.answered l hl
  · refine ⟨hphase, fun l hl => ?_, fun l hl => ?_, fun l hl => ?_⟩
    · by_cases hne : End.dialer l = d
      · subst hne
        exact h.dialer_told hd ((mem_told_self hd).mp hl)
      · exact h.dialer l ((mem_told_of_ne hd hne).mp hl)
    · by_cases hne : End.acceptor l = d
      · subst hne
        have hverdict := (mem_told_self hd).mp hl
        rw [End.peer_acceptor] at hverdict
        exact h.acceptor_told hd hverdict
      · exact h.acceptor l ((mem_told_of_ne hd hne).mp hl)
    · by_cases hother : s.Told l.other
      · exact .inl (hd.told_mono l.other hother)
      refine .inr ?_
      by_cases hne : End.dialer l = d
      · subst hne
        rw [mem_told_self hd, hd.processed, before_append_self hd.fresh]
        exact h.dialer_verdict_iff hd hother
      · rw [hd.processed, List.mem_append, List.mem_singleton, or_iff_left hne] at hl
        rw [mem_told_of_ne hd hne, hd.processed, before_append_of_mem hl]
        exact (h.answered l hl).resolve_left hother

end NodePair

/-! ### Both links -/

open NodePair (Told Before Sound)

variable {P : Parties}

theorem sound_run (es : List LinkEvent) : Sound P (Rollback.run (NodePair.step P) {} es) :=
  Rollback.run_induction (fun _ _ _ h hstep => h.step hstep) es .init

/-- With clocks of which no reading is above the sum of the two on the other link, at most
one of the links is told to go away. -/
theorem told_at_most_one (hclock : ∀ e, P.time e ≤ P.sum e.link.other) (es : List LinkEvent)
    {l l' : Side} (h : Told (Rollback.run (NodePair.step P) {} es) l)
    (h' : Told (Rollback.run (NodePair.step P) {} es) l') : l = l' := by
  have hsound : Sound P (Rollback.run (NodePair.step P) {} es) := sound_run es
  have hlarger : ∀ m, Told (Rollback.run (NodePair.step P) {} es) m → P.sum m.other < P.sum m := by
    rintro m (hdialer | hacceptor)
    · exact hsound.dialer m hdialer
    · exact absurd (hsound.acceptor m hacceptor) (not_lt.mpr (hclock (.dialer m)))
  by_contra hne
  obtain rfl := Side.eq_other_of_ne hne
  have hlt := hlarger _ h
  rw [Side.other_other] at hlt
  exact absurd hlt (hlarger _ h').asymm

/-- Once all handshakes have been processed, at most one of the links is left if and only if
the node that dialed the one with the larger sum has processed the first handshake of the
other before the reply on its own. -/
theorem at_most_one_left_iff (hsum : P.sum .a ≠ P.sum .b) {es : List LinkEvent}
    (hall : ∀ e, e ∈ (Rollback.run (NodePair.step P) {} es).processed) :
    (∀ l l', ¬ Told (Rollback.run (NodePair.step P) {} es) l →
        ¬ Told (Rollback.run (NodePair.step P) {} es) l' → l = l') ↔
      ∀ l, P.sum l.other < P.sum l →
        Before (.acceptor l.other) (.dialer l) (Rollback.run (NodePair.step P) {} es).processed := by
  have hsound : Sound P (Rollback.run (NodePair.step P) {} es) := sound_run es
  revert hall hsound
  generalize Rollback.run (NodePair.step P) {} es = s
  intro hall hsound
  -- No acceptor has told the other end, as the replies were sent.
  have hdialer : ∀ l, Told s l → .dialer l ∈ s.told := by
    rintro l (hdialer | hacceptor)
    · exact hdialer
    · have hended := (hsound.phase l).ended_of_told (.inr (decide_eq_true hacceptor))
      have hnot := of_decide_eq_false (hended.unanswered (decide_eq_true hacceptor))
      exact absurd (hall _) hnot
  obtain ⟨m, hm⟩ : ∃ m : Side, P.sum m.other < P.sum m := by
    obtain hlt | hlt := lt_or_gt_of_ne hsum
    · exact ⟨.b, hlt⟩
    · exact ⟨.a, hlt⟩
  have hleft : ¬ Told s m.other := fun htold => by
    have hlt := hsound.dialer m.other (hdialer _ htold)
    rw [Side.other_other] at hlt
    exact absurd hm hlt.asymm
  have hiff : .dialer m ∈ s.told ↔ P.sum m.other < P.sum m ∧
      Before (.acceptor m.other) (.dialer m) s.processed :=
    (hsound.answered m (hall _)).resolve_left hleft
  constructor
  · intro hone l hl
    have hlm : l = m := by
      by_contra hne
      rw [Side.eq_other_of_ne hne, Side.other_other] at hl
      exact absurd hm hl.asymm
    subst hlm
    have htold : Told s l := by
      by_contra hnot
      exact Side.other_ne l (hone l.other l hleft hnot)
    exact (hiff.mp (hdialer l htold)).2
  · intro hbefore l l' hl hl'
    have htold : Told s m := .inl (hiff.mpr ⟨hm, hbefore m hm⟩)
    have hother : ∀ k, ¬ Told s k → k = m.other := fun k hk =>
      Side.eq_other_of_ne fun heq => hk (heq ▸ htold)
    rw [hother l hl, hother l' hl']

/-! ### Two runs -/

/-- Two nodes with the given readings of their clocks. -/
def twoNodes (time : End → ℤ) : Parties where
  address
    | .a => "a.net:9876 - 0000001"
    | .b => "b.net:9876 - 0000002"
  endpoint
    | .a => "b.net:9876"
    | .b => "a.net:9876"
  nodeId
    | .a => 1
    | .b => 2
  time := time
  address_ne p := by cases p <;> decide
  address_ne_client p := by cases p <;> decide
  address_ne_endpoint p := by cases p <;> decide

def readings (openA replyB openB replyA : ℤ) (e : End) : ℤ :=
  if e = .dialer .a then openA
  else if e = .acceptor .a then replyB
  else if e = .dialer .b then openB
  else replyA

/-- Each node processes the first handshake of the other before the reply to its own. -/
def crossedRun : List LinkEvent :=
  [.dial .a, .dial .b, .deliver (.acceptor .b), .deliver (.acceptor .a), .deliver (.dialer .a),
    .deliver (.dialer .b)]

theorem told_at_most_one_crossed :
    let s := Rollback.run (NodePair.step (twoNodes (readings 100 120 101 110))) {} crossedRun
    s.told = [.dialer .a] ∧ ∀ l l', Told s l → Told s l' → l = l' := by
  refine ⟨by decide +kernel, fun l l' => told_at_most_one (fun e => ?_) crossedRun⟩
  obtain ⟨p, l⟩ := e
  cases p <;> cases l <;> decide

theorem at_most_one_left_crossed :
    let s := Rollback.run (NodePair.step (twoNodes (readings 100 120 101 110))) {} crossedRun
    ∀ l l', ¬ Told s l → ¬ Told s l' → l = l' := by
  refine (at_most_one_left_iff (by decide) fun e => ?_).mpr fun l => ?_
  · obtain ⟨p, l⟩ := e
    cases p <;> cases l <;> decide +kernel
  · cases l <;> decide +kernel

/-- The dialer of the link with the larger sum gets its reply before the first handshake of
the other link. -/
def lateRun : List LinkEvent :=
  [.dial .b, .dial .a, .deliver (.acceptor .a), .deliver (.dialer .a), .deliver (.acceptor .b),
    .deliver (.dialer .b)]

/-- All handshakes have been processed, the sums are 30 and 27, and no end is told to go
away. -/
theorem both_links_left :
    let P := twoNodes (readings 10 20 1 26)
    let s := Rollback.run (NodePair.step P) {} lateRun
    P.sum .a = 30 ∧ P.sum .b = 27 ∧ (∀ e, e ∈ s.processed) ∧ s.told = [] ∧
      ¬ ∀ l l', ¬ Told s l → ¬ Told s l' → l = l' := by
  have htold : (Rollback.run (NodePair.step (twoNodes (readings 10 20 1 26))) {} lateRun).told = [] := by
    decide +kernel
  refine ⟨rfl, rfl, fun e => ?_, htold, fun hone => ?_⟩
  · obtain ⟨p, l⟩ := e
    cases p <;> cases l <;> decide +kernel
  · have hnone : ∀ l, ¬ Told (Rollback.run (NodePair.step (twoNodes (readings 10 20 1 26))) {}
        lateRun) l := fun l hl => by
      rw [Told, htold] at hl
      exact hl.elim List.not_mem_nil List.not_mem_nil
    exact absurd (hone .a .b (hnone _) (hnone _)) (by decide)

end Xidata.Net
