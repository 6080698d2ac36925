import Mathlib.Algebra.Ring.Int.Defs
import Xidata.Library.Precedence
import Xidata.Library.Rollback
import Xidata.Producer.Incoming

/-!
A scheduled transaction that has failed is not tried again before its time on the blacklist is up,
however many blocks are started in between.  What the chain is asked for is told by a record that
it keeps.
-/

namespace Xidata.Producer

open Net (PublicKey)
open Precedence (Preceded)

variable {χ ω : Type}

/-- What the chain is asked for. -/
inductive Asked
  | now (time : ℤ)
  | scheduled (trx : TransactionId)
  deriving DecidableEq

/-- A chain that keeps a record, in its state, of the clock and of the scheduled transactions. -/
structure Records (c : Controller χ) (record : χ → List Asked) : Prop where
  now : ∀ x, record (c.now x).2 = record x ++ [.now (c.now x).1]
  pushTransaction : ∀ x trx deadline, record (c.pushTransaction x trx deadline).2 = record x
  pushScheduledTransaction : ∀ x trx deadline,
    record (c.pushScheduledTransaction x trx deadline).2 = record x ++ [.scheduled trx]
  dropUnappliedTransaction : ∀ x trx, record (c.dropUnappliedTransaction x trx) = record x
  dropAllUnappliedTransactions : ∀ x, record (c.dropAllUnappliedTransactions x) = record x

/-- The clock has shown `expiry` or later. -/
def Reached (expiry : ℤ) (asked : List Asked) : Prop := ∃ time, .now time ∈ asked ∧ expiry ≤ time

theorem Reached.concat {expiry : ℤ} {asked : List Asked} (h : Reached expiry asked) (a : Asked) :
    Reached expiry (asked ++ [a]) := by
  obtain ⟨time, hmem, hle⟩ := h
  exact ⟨time, List.mem_append_left _ hmem, hle⟩

/-- Before each try of the transaction the clock has shown `expiry`. -/
def Quiet (trx : TransactionId) (expiry : ℤ) : List Asked → Prop :=
  Preceded fun a before => a = .scheduled trx → Reached expiry before

namespace Intake

/-- There is an entry that keeps the transaction back at least until then. -/
def Blacklisted (trx : TransactionId) (expiry : ℤ) (s : Intake χ ω) : Prop :=
  ∃ e ∈ s.blacklistedTransactions, e.trxId = trx ∧ expiry ≤ e.expiry

/-- Since the record was `start` the transaction has only been tried after its time was up, and as
long as it is not, the blacklist holds it back. -/
def Barred (record : χ → List Asked) (start : List Asked) (trx : TransactionId) (expiry : ℤ)
    (s : Intake χ ω) : Prop :=
  ∃ asked, record s.chain = start ++ asked ∧ Quiet trx expiry asked ∧
    (s.Blacklisted trx expiry ∨ Reached expiry asked)

variable {c : Controller χ} {record : χ → List Asked} {start : List Asked} {trx : TransactionId}
  {expiry : ℤ} {s s' : Intake χ ω}

/-- Neither the record nor the blacklist changes. -/
theorem Barred.same (b : Barred record start trx expiry s)
    (hrecord : record s'.chain = record s.chain)
    (hlist : s'.blacklistedTransactions = s.blacklistedTransactions) :
    Barred record start trx expiry s' := by
  obtain ⟨asked, hasked, hquiet, hblack⟩ := b
  exact ⟨asked, hrecord.trans hasked, hquiet, hblack.imp_left fun h => by rwa [Blacklisted, hlist]⟩

theorem Barred.tick (b : Barred record start trx expiry s) (r : Records c record) :
    Barred record start trx expiry (s.tick c) := by
  obtain ⟨asked, hasked, hquiet, hblack⟩ := b
  refine ⟨asked ++ [.now (s.clock c)], ?_, hquiet.concat (by simp),
    hblack.imp_right (·.concat _)⟩
  rw [Intake.tick, r.now, hasked, List.append_assoc]
  rfl

/-! ### The transactions of a block that is started -/

theorem Barred.onIncoming (b : Barred record start trx expiry s) (r : Records c record)
    (e : Incoming) : Barred record start trx expiry (onIncomingTransactionAsync c s e) := by
  unfold onIncomingTransactionAsync
  cases s.plugin.pending with
  | none => exact b.same rfl rfl
  | some pbs =>
    dsimp only
    split
    · exact b.same rfl rfl
    split
    · exact b.same rfl rfl
    generalize hs' : ({ s.tick c with chain := _ } : Intake χ ω) = s'
    have hpushed : Barred record start trx expiry s' := by
      rw [← hs']
      exact (b.tick r).same (r.pushTransaction _ _ _) rfl
    split
    · exact hpushed.same rfl rfl
    · split
      · exact hpushed.same rfl rfl
      · exact hpushed.same rfl rfl
    · unfold persist
      split
      · exact hpushed.same rfl rfl
      · exact hpushed.same rfl rfl

theorem Barred.applyUnapplied (b : Barred record start trx expiry s) (r : Records c record)
    (blockTime : ℤ) (trxs : List Transaction) (exhausted : Bool) :
    Barred record start trx expiry (Intake.applyUnapplied c blockTime trxs exhausted s).2 := by
  induction trxs generalizing s exhausted with
  | nil => exact b
  | cons t trxs ih =>
    rw [Intake.applyUnapplied]
    split
    · exact b.tick r
    · have hticked := (b.tick r).tick r
      dsimp only
      split
      · split
        · refine ih ?_ true
          exact hticked.same (r.pushTransaction _ _ _) rfl
        · refine ih ?_ false
          exact hticked.same ((r.dropUnappliedTransaction _ _).trans (r.pushTransaction _ _ _)) rfl
      · refine ih ?_ false
        exact hticked.same (r.pushTransaction _ _ _) rfl

theorem record_dropped (r : Records c record) (trxs : List Transaction) (x : χ) :
    record (trxs.foldl c.dropUnappliedTransaction x) = record x := by
  induction trxs generalizing x with
  | nil => rfl
  | cons t trxs ih => exact (ih _).trans (r.dropUnappliedTransaction x t)

theorem Barred.processUnapplied (b : Barred record start trx expiry s) (r : Records c record)
    (blockTime : ℤ) : Barred record start trx expiry (Intake.processUnapplied c blockTime s).2 := by
  unfold Intake.processUnapplied
  split
  · exact b.same (r.dropAllUnappliedTransactions _) rfl
  · have hdropped : Barred record start trx expiry { s with chain := _ } :=
      b.same (record_dropped r ((c.unappliedTransactions s.chain).filter (s.drops blockTime)) _) rfl
    exact hdropped.applyUnapplied r blockTime _ false

theorem Barred.handle (b : Barred record start trx expiry s) (r : Records c record) (e : Incoming)
    (rest : List Incoming) : Barred record start trx expiry (Intake.handle c s e rest) := by
  have htaken : Barred record start trx expiry
      { s with pendingIncomingTransactions := rest, handled := s.handled ++ [e] } := b.same rfl rfl
  exact htaken.onIncoming r e

theorem Barred.setWeight (b : Barred record start trx expiry s) (weight : ω) :
    Barred record start trx expiry (s.setWeight weight) := b.same rfl rfl

theorem Barred.drainWeighted [One ω] [Sub ω] [LE ω] [DecidableLE ω]
    (b : Barred record start trx expiry s) (r : Records c record) (orig : ℕ) :
    Barred record start trx expiry (Intake.drainWeighted c orig s).2 := by
  induction orig generalizing s with
  | zero => exact b
  | succ orig ih =>
    rw [Intake.drainWeighted]
    split
    · split
      · exact b
      · exact ih ((b.setWeight _).handle r _ _)
    · exact b

theorem mem_insertTransaction {index : List TransactionIdWithExpiry}
    {e entry : TransactionIdWithExpiry} (h : e ∈ index) : e ∈ insertTransaction index entry := by
  unfold insertTransaction
  split
  · exact h
  · exact List.mem_append_left _ h

/-- A transaction that the blacklist holds back is not the one that is pushed. -/
theorem Barred.pushScheduled (b : Barred record start trx expiry s) (r : Records c record)
    (blockTime : ℤ) {t : TransactionId}
    (hfree : ¬ s.blacklistedTransactions.any (·.trxId = t)) :
    Barred record start trx expiry (s.pushScheduled c blockTime t).2 := by
  obtain ⟨asked, hasked, hquiet, hblack⟩ := b.tick r
  -- What is pushed is not on the blacklist, so the clock has shown that its time is up.
  have hreached : t = trx → Reached expiry asked := by
    rintro rfl
    refine hblack.resolve_left fun ⟨e, he, hid, _⟩ => hfree ?_
    exact List.any_eq_true.mpr ⟨e, he, by simpa using hid⟩
  unfold Intake.pushScheduled
  dsimp only
  generalize hs' : ({ s.tick c with chain := _ } : Intake χ ω) = s'
  have hpushed : Barred record start trx expiry s' := by
    rw [← hs']
    refine ⟨asked ++ [.scheduled t], ?_, hquiet.concat ?_, hblack.imp_right (·.concat _)⟩
    · rw [r.pushScheduledTransaction, hasked, List.append_assoc]
    · rintro he
      exact hreached (Asked.scheduled.inj he)
  split
  · split
    · exact hpushed
    · obtain ⟨asked', hasked', hquiet', hblack'⟩ := hpushed.tick r
      refine ⟨asked', hasked', hquiet', hblack'.imp_left fun ⟨e, he, hrest⟩ => ?_⟩
      exact ⟨e, mem_insertTransaction he, hrest⟩
  · exact hpushed

/-- A try that fails, and not for want of room in the block, puts the transaction on the blacklist
for as long as deferred transactions are kept. -/
theorem blacklisted_of_failed {blockTime : ℤ} {err : ChainException} {x : χ}
    (hfailed : c.pushScheduledTransaction (s.tick c).chain trx
      (s.deadline (s.clock c) blockTime).1 = (.trace (some err), x))
    (hobjective : failureIsSubjective err (s.deadline (s.clock c) blockTime).2 = false)
    (hfree : ¬ s.blacklistedTransactions.any (·.trxId = trx)) :
    (s.pushScheduled c blockTime trx).2.Blacklisted trx
      ((c.now x).1 + c.deferredTrxExpirationWindow (c.now x).2 * 1000000) := by
  unfold pushScheduled
  simp only [hfailed, hobjective, Bool.false_eq_true, if_false]
  refine ⟨⟨trx, _⟩, ?_, rfl, le_refl _⟩
  rw [insertTransaction, if_neg]
  · exact List.mem_append_right _ List.mem_cons_self
  · exact hfree

/-- What the reading of the clock takes from the blacklist has been reached with it. -/
theorem Barred.expireBlacklisted (b : Barred record start trx expiry s) (r : Records c record) :
    Barred record start trx expiry ((s.tick c).expireBlacklisted (s.clock c)) := by
  obtain ⟨asked, hasked, hquiet, hblack⟩ := b
  refine ⟨asked ++ [.now (s.clock c)], ?_, hquiet.concat (by simp), ?_⟩
  · rw [Intake.expireBlacklisted, Intake.tick, r.now, hasked, List.append_assoc]
    rfl
  · by_cases hlt : s.clock c < expiry
    · refine hblack.imp (fun ⟨e, he, hid, hle⟩ => ⟨e, ?_, hid, hle⟩) (·.concat _)
      have hkept : s.clock c < e.expiry := by omega
      exact List.mem_filter.mpr ⟨he, by simpa using hkept⟩
    · exact .inr ⟨s.clock c, List.mem_append_right _ List.mem_cons_self, by omega⟩

theorem Barred.drainIncoming (b : Barred record start trx expiry s) (r : Records c record)
    (blockTime : ℤ) (orig : ℕ) :
    Barred record start trx expiry (Intake.drainIncoming c blockTime orig s).2 := by
  induction orig generalizing s with
  | zero => exact b
  | succ orig ih =>
    rw [Intake.drainIncoming]
    split
    · exact b
    · rename_i e rest _
      have hhandled := b.handle r e rest
      dsimp only
      split
      · exact hhandled.tick r
      · exact ih (hhandled.tick r)

section Weight

variable [Zero ω] [One ω] [Add ω] [Sub ω] [LE ω] [DecidableLE ω]

theorem Barred.applyScheduled (b : Barred record start trx expiry s) (r : Records c record)
    (blockTime : ℤ) (trxs : List TransactionId) (orig : ℕ) (exhausted : Bool) :
    Barred record start trx expiry
      (Intake.applyScheduled c blockTime trxs orig exhausted s).2.2 := by
  induction trxs generalizing s orig exhausted with
  | nil => exact b
  | cons t trxs ih =>
    rw [Intake.applyScheduled]
    split
    · exact b.tick r
    · have hdrained := (b.tick r).drainWeighted r orig
      dsimp only
      split
      · exact hdrained.tick r
      · split
        · exact ih (hdrained.tick r) _ false
        · rename_i hfree
          exact ih (((hdrained.tick r).pushScheduled r blockTime hfree).setWeight _) _ _

theorem Barred.processScheduled (b : Barred record start trx expiry s) (r : Records c record)
    (blockTime : ℤ) (orig : ℕ) (exhausted : Bool) :
    Barred record start trx expiry
      (Intake.processScheduled c blockTime orig exhausted s).2.2 := by
  unfold Intake.processScheduled
  split
  · exact (b.expireBlacklisted r).applyScheduled r blockTime _ orig exhausted
  · exact b

theorem Barred.startBlock (b : Barred record start trx expiry s) (r : Records c record) (now : ℤ)
    (key : Option PublicKey) : Barred record start trx expiry (s.startBlock c now key).2 := by
  have hstart : Barred record start trx expiry (s.startPlugin now key) := b.same rfl rfl
  unfold Intake.startBlock
  dsimp only
  split
  · exact hstart
  · split
    · exact hstart
    · rename_i pbs _
      have hexpired : Barred record start trx expiry
          ((s.startPlugin now key).expirePersisted pbs.timestamp) := hstart.same rfl rfl
      have hunapplied := hexpired.processUnapplied r pbs.timestamp
      -- The unapplied transactions are followed by the scheduled ones, and these by the incoming.
      unfold processTransactions
      dsimp only
      have hscheduled := hunapplied.processScheduled r pbs.timestamp
        (s.startPlugin now key).pendingIncomingTransactions.length
        (Intake.processUnapplied c pbs.timestamp
          ((s.startPlugin now key).expirePersisted pbs.timestamp)).1
      split
      · exact hscheduled
      · split
        · exact hscheduled.tick r
        · exact ((hscheduled.tick r).setWeight 0).drainIncoming r pbs.timestamp _

/-! ### Runs -/

/-- A change of the chain that comes from elsewhere does not touch the record. -/
def RecordStays (record : χ → List Asked) (s : Intake χ ω) (e : IntakeEvent χ ω)
    (_ : Intake χ ω) : Prop :=
  ∀ x, e = .chain x → record x = record s.chain

theorem Barred.step {e : IntakeEvent χ ω} (b : Barred record start trx expiry s)
    (r : Records c record) (hstep : s.step c e = .ok s') (hstays : RecordStays record s e s') :
    Barred record start trx expiry s' := by
  cases e with
  | submit trx' persistUntilExpired =>
    cases hstep
    have hnumbered : Barred record start trx expiry { s with submitted := s.submitted + 1 } :=
      b.same rfl rfl
    exact hnumbered.onIncoming r _
  | startBlock now key =>
    cases hstep
    exact b.startBlock r now key
  | plugin e =>
    cases e with
    | startBlock now key => cases hstep
    | _ =>
      obtain ⟨plugin, -, rfl⟩ := Rollback.map_eq_ok.mp hstep
      exact b.same rfl rfl
  | chain x =>
    cases hstep
    exact b.same (hstays x rfl) rfl
  | updateRuntimeOptions maxTransactionTimeMs incomingDeferRatio =>
    cases hstep
    exact b.same rfl rfl

/-- In every run the clock has shown `expiry` before the transaction is tried. -/
theorem not_tried_before_expiry (r : Records c record) (hblack : s.Blacklisted trx expiry)
    {es : List (IntakeEvent χ ω)} (hstays : Rollback.Along (step c) (RecordStays record) s es) :
    ∃ asked, record (Rollback.run (step c) s es).chain = record s.chain ++ asked ∧
      ∀ before after, asked = before ++ .scheduled trx :: after →
        ∃ time, .now time ∈ before ∧ expiry ≤ time := by
  have hstart : Barred record (record s.chain) trx expiry s :=
    ⟨[], (List.append_nil _).symm, Precedence.preceded_nil, .inl hblack⟩
  obtain ⟨asked, hasked, hquiet, -⟩ := Rollback.run_induction_along
    (fun _ _ _ b hstep hP => b.step r hstep hP) hstays hstart
  exact ⟨asked, hasked, fun before after h => hquiet h rfl⟩

end Weight

/-- A chain whose clock goes on by 20 with every reading, and which has one scheduled
transaction. -/
def recordingChain : Controller (ℤ × List Asked) where
  now x := (x.1, x.1 + 20, x.2 ++ [.now x.1])
  isKnownUnexpiredTransaction _ _ := false
  pushTransaction x _ _ := (.trace none, x)
  pushScheduledTransaction x trx _ := (.trace none, x.1, x.2 ++ [.scheduled trx])
  unappliedTransactions _ := []
  scheduledTransactions _ := [7]
  dropUnappliedTransaction x _ := x
  dropAllUnappliedTransactions x := x
  deferredTrxExpirationWindow _ := 600

theorem recordingChain_records : Records recordingChain Prod.snd where
  now _ := rfl
  pushTransaction _ _ _ := rfl
  pushScheduledTransaction _ _ _ := rfl
  dropUnappliedTransaction _ _ := rfl
  dropAllUnappliedTransactions _ := rfl

/-- The transaction is passed over in the first block and tried in the second one. -/
theorem not_tried_before_expiry_twice :
    let s : Intake (ℤ × List Asked) ℤ :=
      { plugin := { producers := [0], signatureProviders := [{}], productionEnabled := true }
        chain := (0, [])
        incomingTrxWeight := 0
        incomingDeferRatio := 1
        blacklistedTransactions := [⟨7, 50⟩] }
    let es : List (IntakeEvent (ℤ × List Asked) ℤ) :=
      [.startBlock 1 (some {}), .startBlock 1 (some {})]
    (∃ asked, (Rollback.run (step recordingChain) s es).chain.2 = [] ++ asked ∧
      ∀ before after, asked = before ++ .scheduled 7 :: after →
        ∃ time, .now time ∈ before ∧ 50 ≤ time) ∧
      (Rollback.run (step recordingChain) s es).chain.2 =
        [.now 0, .now 20, .now 40, .now 60, .now 80, .now 100, .now 120, .now 140, .scheduled 7,
          .now 160] :=
  ⟨not_tried_before_expiry recordingChain_records ⟨⟨7, 50⟩, by decide, rfl, by decide⟩
    ⟨fun _ _ _ hx => (by cases hx), fun _ _ _ hx => (by cases hx), trivial⟩, by decide +kernel⟩

end Intake

end Xidata.Producer
