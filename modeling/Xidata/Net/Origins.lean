import Xidata.Library.Rollback
import Xidata.Net.Relay

/-!
Where the blocks and transactions came from.  The origins of a transaction are forgotten
with the verdict on it, whatever it is.  Those of a block are forgotten only when the chain
signals that the block is accepted.
-/

namespace Xidata.Net

namespace Relay

variable {content : Contents} {n n' : Relay} {c : ConnectionId}

/-- No origin of a block is kept, and of a transaction only as long as the verdict on it is
awaited. -/
structure Tracked (n : Relay) : Prop where
  blocks : n.receivedBlocks = []
  transactions : ∀ p ∈ n.receivedTransactions, ∃ trx ∈ n.awaited, trx.id = p.1

/-- Nothing is kept of what the verdict was on. -/
def Delivered : RelayEvent → Relay → Prop
  | .on _ (.signedBlock msg ..), n => ∀ p ∈ n.receivedBlocks, p.1 ≠ msg.id
  | .verdict trx .., n => ∀ p ∈ n.receivedTransactions, p.1 ≠ trx.id
  | _, _ => True

/-- A block that the chain does not know is accepted with a signal. -/
def Signals : RelayEvent → Prop
  | .on _ (.signedBlock msg known _ signalled) =>
      known = false → msg.id ∈ signalled.map SignedBlock.id
  | _ => True

/-! ### What the steps do to the origins -/

/-- The origins and the verdicts that are awaited. -/
structure SameOrigins (n n' : Relay) : Prop where
  blocks : n'.receivedBlocks = n.receivedBlocks
  transactions : n'.receivedTransactions = n.receivedTransactions
  awaited : n'.awaited = n.awaited

theorem SameOrigins.trans {n₁ n₂ : Relay} (h : SameOrigins n n₁) (h' : SameOrigins n₁ n₂) :
    SameOrigins n n₂ :=
  ⟨h'.blocks.trans h.blocks, h'.transactions.trans h.transactions, h'.awaited.trans h.awaited⟩

theorem SameOrigins.tracked (h : SameOrigins n n') (htracked : Tracked n) : Tracked n' where
  blocks := h.blocks.trans htracked.blocks
  transactions p hp := by
    rw [h.awaited]
    exact htracked.transactions p (h.transactions ▸ hp)

theorem SameOrigins.foldl {α : Type} {f : Relay → α → Relay} (hf : ∀ n a, SameOrigins n (f n a))
    (l : List α) (n : Relay) : SameOrigins n (l.foldl f n) := by
  induction l generalizing n with
  | nil => exact ⟨rfl, rfl, rfl⟩
  | cons a l ih => exact (hf n a).trans (ih (f n a))

theorem sameOrigins_sendAll (n : Relay) (msg : NetMessage) (verify : ConnectionId → Bool) :
    SameOrigins n (n.sendAll content msg verify) :=
  sendAll_induction (I := SameOrigins n) (fun _ _ h _ => h.trans ⟨rfl, rfl, rfl⟩) verify
    ⟨rfl, rfl, rfl⟩

theorem sameOrigins_handleRequest (n : Relay) (c : ConnectionId) (reqTrx : SelectIds) :
    SameOrigins n (n.handleRequest c reqTrx) := by
  unfold handleRequest
  split
  · refine SameOrigins.foldl (fun n tx => ?_) _ n
    split <;> exact ⟨rfl, rfl, rfl⟩
  · refine SameOrigins.foldl (fun n t => ?_) _ n
    split
    · split <;> exact ⟨rfl, rfl, rfl⟩
    · exact ⟨rfl, rfl, rfl⟩
  · exact ⟨rfl, rfl, rfl⟩

theorem sameOrigins_writeDone (n : Relay) (c : ConnectionId)
    (fetch : UInt32 → Option SignedBlock) (k : ℕ) (failed : Bool) :
    SameOrigins n (n.writeDone content c fetch k failed) := by
  have hcall : ∀ n m, SameOrigins n (call n m) := by
    intro n m
    unfold call
    split <;> exact ⟨rfl, rfl, rfl⟩
  exact (SameOrigins.foldl hcall _ n).trans ⟨rfl, rfl, rfl⟩

/-- A broadcast forgets the origins of its block, and only these. -/
theorem sameOrigins_bcastBlock (content : Contents) (n : Relay) (bsum : SignedBlock) :
    SameOrigins { n with receivedBlocks := n.receivedBlocks.filter fun p => p.1 ≠ bsum.id }
      (n.bcastBlock content bsum) := sameOrigins_sendAll _ _ _

/-- The origins of the blocks that are signalled are forgotten. -/
theorem bcastBlocks_origins (content : Contents) (blocks : List SignedBlock) (n : Relay) :
    SameOrigins
      { n with receivedBlocks :=
          n.receivedBlocks.filter fun p => p.1 ∉ blocks.map SignedBlock.id }
      (blocks.foldl (bcastBlock content) n) := by
  induction blocks generalizing n with
  | nil => exact ⟨by simp, rfl, rfl⟩
  | cons block blocks ih =>
      have hone := sameOrigins_bcastBlock content n block
      have hrest := ih (n.bcastBlock content block)
      refine ⟨?_, hrest.transactions.trans hone.transactions, hrest.awaited.trans hone.awaited⟩
      rw [List.foldl_cons, hrest.blocks]
      dsimp only
      rw [hone.blocks, List.filter_filter]
      refine List.filter_congr fun p _ => ?_
      simp [Bool.and_comm]

/-- The verdict forgets the origins of its transaction, and only these. -/
theorem sameOrigins_verdict (n : Relay) (trx : PackedTransaction) (accepted : Bool)
    (unknownTo : List ConnectionId) :
    SameOrigins
      { n with receivedTransactions := n.receivedTransactions.filter fun p => p.1 ≠ trx.id }
      (n.verdict content trx accepted unknownTo) := by
  unfold verdict
  split
  · unfold bcastTransaction
    dsimp only
    split
    · exact ⟨rfl, rfl, rfl⟩
    · refine SameOrigins.trans ?_ (sameOrigins_sendAll _ _ _)
      exact ⟨rfl, rfl, rfl⟩
  · exact ⟨rfl, rfl, rfl⟩

theorem sameOrigins_updateBlockNums (n : Relay) (msg : SignedBlock) :
    SameOrigins n (n.updateBlockNums content msg) := by
  refine SameOrigins.foldl (fun n id => ?_) _ n
  exact ⟨rfl, rfl, rfl⟩

/-- What the chain is given a block for: all origins but those of the blocks that it signals
are kept, that of the block among them. -/
theorem sameOrigins_handleSignedBlock (n : Relay) (c : ConnectionId) (msg : SignedBlock)
    (outcome : AcceptOutcome) (signalled : List SignedBlock) :
    SameOrigins
      { n with receivedBlocks := (n.receivedBlocks ++ [(msg.id, c)]).filter fun p =>
          p.1 ∉ signalled.map SignedBlock.id }
      (n.handleSignedBlock content c msg false outcome signalled) := by
  have hsignalled := bcastBlocks_origins content signalled (n.recvBlock c msg.id)
  rw [handleSignedBlock, if_neg Bool.false_ne_true]
  dsimp only
  split
  · exact hsignalled.trans (sameOrigins_updateBlockNums _ msg)
  · exact hsignalled

/-- The origin of one block is forgotten exactly with a signal for it. -/
theorem filter_origin_eq_nil {id : BlockId} {blocks : List SignedBlock} :
    [(id, c)].filter (fun p => p.1 ∉ blocks.map SignedBlock.id) = [] ↔
      id ∈ blocks.map SignedBlock.id := by
  simp [List.filter_eq_nil_iff]

/-! ### Runs -/

/-- What happens on a connection leaves the origins, unless it brings a transaction or a
block. -/
theorem sameOrigins_peerStep {e : PeerEvent} (htakes : PeerTakes content n c e n')
    (htrx : ∀ msg ignored, e ≠ .packedTransaction msg ignored)
    (hblock : ∀ msg known outcome signalled, e ≠ .signedBlock msg known outcome signalled) :
    SameOrigins n n' := by
  cases htakes with
  | packedTransaction msg ignored => exact absurd rfl (htrx msg ignored)
  | signedBlock msg known outcome signalled => exact absurd rfl (hblock msg known outcome signalled)
  | dial | connectionMonitor | destroy | enqueue | syncRequest | goAway | close =>
      exact ⟨rfl, rfl, rfl⟩
  | cancelSync reason =>
      unfold cancelSync
      dsimp only
      split <;> exact ⟨rfl, rfl, rfl⟩
  | writeDone fetch k failed => exact sameOrigins_writeDone n c fetch k failed
  | request reqTrx => exact sameOrigins_handleRequest n c reqTrx

/-- A transaction that comes in is waited for. -/
theorem Tracked.packedTransaction (h : Tracked n) (c : ConnectionId) (msg : PackedTransaction)
    (ignored : Bool) : Tracked (n.handlePackedTransaction c msg ignored) := by
  unfold handlePackedTransaction
  split
  · exact h
  · split
    · exact h
    · refine ⟨h.blocks, fun p hp => ?_⟩
      obtain hp | hp := List.mem_append.mp hp
      · obtain ⟨trx, htrx, hid⟩ := h.transactions p hp
        exact ⟨trx, List.mem_append_left _ htrx, hid⟩
      · rw [List.mem_singleton.mp hp]
        exact ⟨msg, List.mem_append_right _ (List.mem_singleton.mpr rfl), rfl⟩

/-- A verdict takes one of the transactions off those that are waited for. -/
theorem Tracked.verdict (h : Tracked n) (trx : PackedTransaction) (accepted : Bool)
    (unknownTo : List ConnectionId) {awaited : List PackedTransaction}
    (hawaited : ∀ t ∈ n.awaited, t ∈ awaited ∨ t = trx) :
    Tracked ({ n with awaited := awaited }.verdict content trx accepted unknownTo) := by
  refine (sameOrigins_verdict _ trx accepted unknownTo).tracked ⟨h.blocks, fun p hp => ?_⟩
  obtain ⟨hold, hne⟩ := List.mem_filter.mp hp
  obtain ⟨t, ht, hid⟩ := h.transactions p hold
  obtain ht | rfl := hawaited t ht
  · exact ⟨t, ht, hid⟩
  · exact absurd hid.symm (of_decide_eq_true hne)

theorem Tracked.step {e : RelayEvent} (h : Tracked n) (he : Signals e)
    (hstep : n.step content e = .ok n') : Tracked n' := by
  cases takes_of_step hstep with
  | accept | connect => exact ⟨h.blocks, h.transactions⟩
  | verdict trx accepted unknownTo =>
      refine h.verdict trx accepted unknownTo fun t ht => ?_
      by_cases heq : t = trx
      · exact .inr heq
      · exact .inl ((List.mem_erase_of_ne heq).mpr ht)
  | transactionAck trx accepted unknownTo =>
      exact h.verdict trx accepted unknownTo fun t ht => .inl ht
  | acceptedBlock block =>
      refine (sameOrigins_bcastBlock _ n block).tracked ⟨?_, h.transactions⟩
      rw [h.blocks]
      rfl
  | expireTxns now lib => exact ⟨h.blocks, h.transactions⟩
  | on c e hc htakes =>
      cases e with
      | packedTransaction msg ignored =>
          cases htakes
          exact h.packedTransaction c msg ignored
      | signedBlock msg known outcome signalled =>
          cases htakes
          cases known with
          | true => exact h
          | false =>
              refine (sameOrigins_handleSignedBlock n c msg outcome signalled).tracked
                ⟨?_, h.transactions⟩
              rw [h.blocks, List.nil_append, filter_origin_eq_nil]
              exact he rfl
      | _ => exact (sameOrigins_peerStep htakes nofun nofun).tracked h

/-- A block that is not signalled leaves its origin behind. -/
theorem Tracked.signals {e : RelayEvent} (h : Tracked n) (hstep : n.step content e = .ok n')
    (h' : Tracked n') : Signals e := by
  cases takes_of_step hstep with
  | on c e hc htakes =>
      cases htakes with
      | signedBlock msg known outcome signalled =>
          rintro rfl
          have hblocks := h'.blocks
          rw [(sameOrigins_handleSignedBlock n c msg outcome signalled).blocks, h.blocks] at hblocks
          exact filter_origin_eq_nil.mp hblocks
      | _ => trivial
  | _ => trivial

/-- Once the verdict is there nothing is kept of what it was on. -/
theorem Tracked.delivered {e : RelayEvent} (h : Tracked n) (he : Signals e)
    (hstep : n.step content e = .ok n') : Delivered e n' := by
  have htracked := h.step he hstep
  cases takes_of_step hstep with
  | verdict trx accepted unknownTo =>
      intro p hp
      rw [(sameOrigins_verdict _ trx accepted unknownTo).transactions] at hp
      exact of_decide_eq_true (List.mem_filter.mp hp).2
  | on c e hc htakes =>
      cases htakes with
      | signedBlock msg known outcome signalled =>
          intro p hp
          rw [htracked.blocks] at hp
          cases hp
      | _ => trivial
  | _ => trivial

/-- In a run, the origins are those of what the verdict is awaited on, and no origin is left
once it is there, if and only if every block that the chain does not know is accepted with a
signal. -/
theorem origins_tracked_iff {es : List RelayEvent} :
    (∀ n ∈ Rollback.trace (step content) {} es, Tracked n) ∧
        Rollback.Along (step content) (fun _ e n' => Delivered e n') {} es ↔
      Rollback.Along (step content) (fun _ e _ => Signals e) {} es := by
  have hstart : Tracked {} := ⟨rfl, fun p hp => absurd hp List.not_mem_nil⟩
  have htrace : (∀ n ∈ Rollback.trace (step content) {} es, Tracked n) ↔
      Rollback.Along (step content) (fun _ e _ => Signals e) {} es :=
    Rollback.trace_iff_along (fun _ h => h) (fun _ _ _ h hstep he => h.step he hstep)
      (fun _ _ _ h hstep h' => h.signals hstep h') hstart
  refine ⟨fun h => htrace.mp h.1, fun h => ⟨htrace.mpr h, ?_⟩⟩
  exact h.of_invariant (fun _ _ _ h hstep he => ⟨h.step he hstep, h.delivered he hstep⟩) hstart

/-- Two blocks that the chain does not accept, one with an exception and one without. -/
def rejectedBlocks : List RelayEvent :=
  [.accept 1, .on 1 (.signedBlock ⟨5, 100⟩ false .unlinkable []),
    .on 1 (.signedBlock ⟨6, 100⟩ false .accepted [])]

/-- The origins of blocks that are rejected are kept for good. -/
theorem origins_kept :
    let content : Contents := ⟨fun _ => [], fun _ => 0, fun _ => []⟩
    let n := Rollback.run (step content) {} rejectedBlocks
    ¬ Tracked n ∧ n.receivedBlocks = [(5, 1), (6, 1)] := by
  intro content n
  have hkept : n.receivedBlocks = [(5, 1), (6, 1)] := by decide +kernel
  refine ⟨fun h => ?_, hkept⟩
  rw [h.blocks] at hkept
  cases hkept

end Relay

end Xidata.Net
