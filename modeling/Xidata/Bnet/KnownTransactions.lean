import Xidata.Bnet.Session

/-!
Which transactions the peer is known to have.  An entry that says so keeps the transaction from
being sent again, as long as it is there: its time is not extended when the transaction is
accepted again, so it expires in the middle of the acceptances.
-/

namespace Xidata.Bnet

attribute [local instance] lawfulBEq_sha256

/-- The transactions that come with a message. -/
def BnetMessage.trxIds : BnetMessage → List TransactionId
  | .packedTransaction (some p) => [p.id]
  | .signedBlock (some b) => b.transactions
  | _ => []

def BnetMessage.trx : BnetMessage → Option TransactionId
  | .packedTransaction p => p.map PackedTransaction.id
  | _ => none

def Event.trxIds : Event → List TransactionId
  | .message msg => msg.trxIds
  | _ => []

namespace Session

variable {ext : Externals} {now : Time} {s s' : Session} {id : TransactionId}

def sentTrx (s : Session) : List TransactionId := s.sent.filterMap BnetMessage.trx

/-- The transaction has been sent to the peer or received from it, also in a block. -/
def Exchanged (s : Session) (id : TransactionId) : Prop :=
  id ∈ s.sentTrx ∨ id ∈ s.heard.flatMap BnetMessage.trxIds

instance : Decidable (Exchanged s id) := inferInstanceAs (Decidable (_ ∨ _))

/-- The transactions that have been sent from one state to the next. -/
def trxSentSince (s s' : Session) : List TransactionId := s'.sentTrx.drop s.sentTrx.length

/-- The time of the entry is not over. -/
def Fresh (now : Time) (s : Session) (id : TransactionId) : Prop :=
  ∀ stat ∈ s.transactionStatus, stat.id = id → now ≤ stat.expired

instance : Decidable (Fresh now s id) :=
  inferInstanceAs (Decidable (∀ stat ∈ s.transactionStatus, stat.id = id → now ≤ stat.expired))

variable (ext id s) in
/-- The transaction is in no block that the chain accepts, and is not ignored when it comes
first. -/
def Heeded : Time × Event → Prop
  | (_, .acceptedBlock b) => id ∉ b.transactions
  | (now, .message (.packedTransaction (some p))) =>
      Exchanged s id ∨ ext.readOnly = false ∧ now ≤ p.expiration
  | _ => True

instance (e : Time × Event) : Decidable (Heeded ext s id e) := by
  unfold Heeded
  split <;> infer_instance

variable (ext id s) in
/-- The entry of a transaction that has been exchanged, or is being received, does not
expire. -/
def Remembered (e : Time × Event) : Prop :=
  Exchanged s id ∨ id ∈ e.2.trxIds → Fresh e.1 s id ∧ Heeded ext s id e

instance (e : Time × Event) : Decidable (Remembered ext s id e) :=
  inferInstanceAs (Decidable (_ → _))

/-! ### The entries -/

/-- Each transaction has one entry, which has the transaction until the peer knows it. -/
structure TableOk (s : Session) : Prop where
  nodup : (s.transactionStatus.map TransactionStatus.id).Nodup
  trx : ∀ stat ∈ s.transactionStatus, stat.knownByPeer = false →
    ∃ p, stat.trx = some p ∧ p.id = stat.id

/-- There is an entry that says that the peer knows the transaction. -/
def KnownEntry (s : Session) (id : TransactionId) : Prop :=
  ∃ stat ∈ s.transactionStatus, stat.id = id ∧ stat.knownByPeer = true

structure Tracked (s : Session) (id : TransactionId) : Prop where
  table : TableOk s
  known : Exchanged s id → KnownEntry s id

/-- No transaction is sent, and the entries go on saying what the peer knows. -/
structure Kept (s s' : Session) : Prop where
  sentTrx : s'.sentTrx = s.sentTrx
  heard : s'.heard = s.heard
  table : TableOk s → TableOk s'
  known : ∀ id, KnownEntry s id → KnownEntry s' id

/-- No entry gets less time. -/
structure Upkeep (now : Time) (s s' : Session) : Prop extends Kept s s' where
  fresh : ∀ id, Fresh now s id → Fresh now s' id

theorem kept_refl (s : Session) : Kept s s := ⟨rfl, rfl, fun h => h, fun _ h => h⟩

theorem kept_doGoodbye (s : Session) : Kept s s.doGoodbye :=
  ⟨rfl, rfl, fun h => ⟨h.nodup, h.trx⟩, fun _ h => h⟩

theorem Upkeep.of_eq (htable : s'.transactionStatus = s.transactionStatus)
    (hsent : s'.sentTrx = s.sentTrx) (hheard : s'.heard = s.heard) : Upkeep now s s' where
  sentTrx := hsent
  heard := hheard
  table h := ⟨htable ▸ h.nodup, htable ▸ h.trx⟩
  known _ h := by
    rw [KnownEntry, htable]
    exact h
  fresh _ h := by
    rw [Fresh, htable]
    exact h

theorem Upkeep.trans {s₁ s₂ : Session} (h : Upkeep now s s₁) (h' : Upkeep now s₁ s₂) :
    Upkeep now s s₂ where
  sentTrx := h'.sentTrx.trans h.sentTrx
  heard := h'.heard.trans h.heard
  table htable := h'.table (h.table htable)
  known id hknown := h'.known id (h.known id hknown)
  fresh id hfresh := h'.fresh id (h.fresh id hfresh)

theorem Upkeep.foldl {ι : Type} {f : Session → ι → Session} (hf : ∀ s i, Upkeep now s (f s i))
    (l : List ι) (s : Session) : Upkeep now s (l.foldl f s) :=
  List.foldlRecOn (motive := Upkeep now s) l f (.of_eq rfl rfl rfl)
    fun s₁ hs₁ i _ => hs₁.trans (hf s₁ i)

theorem Kept.exchanged (h : Kept s s') : Exchanged s' id ↔ Exchanged s id := by
  rw [Exchanged, h.sentTrx, h.heard, Exchanged]

theorem Kept.tracked (h : Kept s s') (hs : Tracked s id) : Tracked s' id where
  table := h.table hs.table
  known hexchanged := h.known _ (hs.known (h.exchanged.mp hexchanged))

theorem Kept.trxSentSince (h : Kept s s') : trxSentSince s s' = [] := by
  rw [Session.trxSentSince, h.sentTrx, List.drop_length]

/-- A change of one entry that leaves the transaction and what says that the peer knows it. -/
theorem kept_modifyTrx (s : Session) (id : TransactionId) {f : TransactionStatus → TransactionStatus}
    (hid : ∀ stat, (f stat).id = stat.id)
    (hknown : ∀ stat, stat.knownByPeer = true → (f stat).knownByPeer = true)
    (htrx : ∀ stat, (f stat).knownByPeer = false → (f stat).trx = stat.trx) :
    Kept s (s.modifyTrx id f) where
  sentTrx := rfl
  heard := rfl
  table h := by
    have hids : (s.modifyTrx id f).transactionStatus.map TransactionStatus.id =
        s.transactionStatus.map TransactionStatus.id := by
      rw [modifyTrx, List.map_map]
      refine List.map_congr_left fun stat _ => ?_
      dsimp only [Function.comp]
      split
      · exact hid stat
      · rfl
    refine ⟨hids ▸ h.nodup, fun stat' hstat' hunknown => ?_⟩
    obtain ⟨stat, hstat, rfl⟩ := List.mem_map.mp hstat'
    by_cases hstatId : stat.id = id
    · rw [if_pos hstatId] at hunknown ⊢
      have hbefore : stat.knownByPeer = false := by
        by_contra hyes
        rw [hknown stat (Bool.not_eq_false _ ▸ hyes)] at hunknown
        cases hunknown
      rw [htrx stat hunknown, hid]
      exact h.trx stat hstat hbefore
    · rw [if_neg hstatId] at hunknown ⊢
      exact h.trx stat hstat hunknown
  known id' h := by
    obtain ⟨stat, hstat, hstatId, hstatKnown⟩ := h
    refine ⟨_, List.mem_map_of_mem hstat, ?_, ?_⟩
    · split
      · rw [hid, hstatId]
      · exact hstatId
    · split
      · exact hknown stat hstatKnown
      · exact hstatKnown

theorem kept_setExpired (s : Session) (id : TransactionId) (expired : Time) :
    Kept s (s.modifyTrx id fun stat => { stat with expired := expired }) :=
  kept_modifyTrx s id (fun _ => rfl) (fun _ hknown => hknown) fun _ _ => rfl

theorem kept_markKnown (s : Session) (id : TransactionId) :
    Kept s (s.modifyTrx id TransactionStatus.markKnownByPeer) :=
  kept_modifyTrx s id (fun _ => rfl) (fun _ _ => rfl) fun _ hunknown => (nomatch hunknown)

theorem knownEntry_markKnown {stat : TransactionStatus} (hstat : stat ∈ s.transactionStatus)
    (hid : stat.id = id) : KnownEntry (s.modifyTrx id TransactionStatus.markKnownByPeer) id := by
  refine ⟨_, List.mem_map_of_mem hstat, ?_, ?_⟩
  · rw [if_pos hid]
    exact hid
  · rw [if_pos hid]
    rfl

theorem le_add_seconds (now : Time) (n : ℕ) : now ≤ now + seconds n := Nat.le_add_right now _

/-- A new entry. -/
theorem upkeep_insert {stat : TransactionStatus} (hnew : s.findTrx stat.id = none)
    (htrx : stat.knownByPeer = false → ∃ p, stat.trx = some p ∧ p.id = stat.id)
    (hexpired : now ≤ stat.expired) :
    Upkeep now s { s with transactionStatus := s.transactionStatus ++ [stat] } where
  sentTrx := rfl
  heard := rfl
  table h := by
    refine ⟨?_, fun stat' hstat' hunknown => ?_⟩
    · rw [List.map_append, List.nodup_append]
      refine ⟨h.nodup, List.nodup_singleton _, fun a ha b hb heq => ?_⟩
      obtain ⟨stat', hstat', rfl⟩ := List.mem_map.mp ha
      rw [List.map_singleton, List.mem_singleton] at hb
      exact List.find?_eq_none.mp hnew stat' hstat' (decide_eq_true (heq.trans hb))
    · obtain hmem | hmem := List.mem_append.mp hstat'
      · exact h.trx stat' hmem hunknown
      · rw [List.mem_singleton.mp hmem] at hunknown ⊢
        exact htrx hunknown
  known id h := by
    obtain ⟨stat', hstat', hknown⟩ := h
    exact ⟨stat', List.mem_append_left _ hstat', hknown⟩
  fresh id h stat' hstat' hid := by
    obtain hmem | hmem := List.mem_append.mp hstat'
    · exact h stat' hmem hid
    · rw [List.mem_singleton.mp hmem]
      exact hexpired

theorem upkeep_markTransactionKnownByPeer (now : Time) (s : Session) (id : TransactionId) :
    Upkeep now s (s.markTransactionKnownByPeer now id) := by
  unfold markTransactionKnownByPeer
  split
  · refine ⟨kept_markKnown s id, fun id' hfresh stat' hstat' hid => ?_⟩
    obtain ⟨stat, hstat, rfl⟩ := List.mem_map.mp hstat'
    by_cases hstatId : stat.id = id
    · rw [if_pos hstatId] at hid ⊢
      exact hfresh stat hstat hid
    · rw [if_neg hstatId] at hid ⊢
      exact hfresh stat hstat hid
  · next hnone => exact upkeep_insert hnone (fun hunknown => (nomatch hunknown)) (le_add_seconds now 5)

theorem knownEntry_markTransactionKnownByPeer (now : Time) (s : Session) (id : TransactionId) :
    KnownEntry (s.markTransactionKnownByPeer now id) id := by
  unfold markTransactionKnownByPeer
  split
  · next stat hfind =>
      obtain ⟨hmem, hid⟩ := mem_of_findTrx hfind
      exact knownEntry_markKnown hmem hid
  · exact ⟨_, List.mem_append_right _ (List.mem_singleton.mpr rfl), rfl, rfl⟩

theorem upkeep_markBlockTransactionsKnownByPeer (now : Time) (s : Session) (b : SignedBlock) :
    Upkeep now s (s.markBlockTransactionsKnownByPeer now b) :=
  .foldl (upkeep_markTransactionKnownByPeer now) _ s

theorem knownEntry_markBlockTransactionsKnownByPeer (now : Time) {b : SignedBlock}
    (hid : id ∈ b.transactions) (s : Session) :
    KnownEntry (s.markBlockTransactionsKnownByPeer now b) id := by
  obtain ⟨before, after, hsplit⟩ := List.append_of_mem hid
  rw [markBlockTransactionsKnownByPeer, hsplit, List.foldl_append, List.foldl_cons]
  exact (Upkeep.foldl (upkeep_markTransactionKnownByPeer now) after _).known id
    (knownEntry_markTransactionKnownByPeer now _ id)

theorem upkeep_markBlockStatus (ext : Externals) (now : Time) (s : Session) (id : BlockId) (known recv : Bool) :
    Upkeep now s (s.markBlockStatus ext id known recv) := by
  obtain ⟨_, heq, -⟩ := markBlockStatus_cases ext s id known recv
  rw [heq]
  exact .of_eq rfl rfl rfl

/-! ### What is said -/

/-- Entries are erased, but not this one. -/
theorem Tracked.erase (hs : Tracked s id) {p : TransactionStatus → Bool}
    (hp : Exchanged s id → ∀ stat ∈ s.transactionStatus, stat.id = id → p stat = true) :
    Tracked { s with transactionStatus := s.transactionStatus.filter p } id where
  table :=
    { nodup := hs.table.nodup.sublist (List.filter_sublist.map _)
      trx := fun stat hstat => hs.table.trx stat (List.mem_filter.mp hstat).1 }
  known hexchanged := by
    obtain ⟨stat, hstat, hid, hknown⟩ := hs.known hexchanged
    exact ⟨stat, List.mem_filter.mpr ⟨hstat, hp hexchanged stat hstat hid⟩, hid, hknown⟩

theorem Tracked.clearExpiredTrx (hs : Tracked s id) (hfresh : Exchanged s id → Fresh now s id) :
    Tracked (s.clearExpiredTrx now) id :=
  hs.erase fun hexchanged stat hstat hid => decide_eq_true (hfresh hexchanged stat hstat hid)

/-- The entry says that the peer knows the transaction, so another one is sent. -/
theorem Tracked.sendTrx (hs : Tracked s id) {start : TransactionStatus}
    (hstart : start ∈ s.transactionStatus) (hunknown : start.knownByPeer = false) :
    Tracked ((s.modifyTrx start.id TransactionStatus.markKnownByPeer).send
        (.packedTransaction start.trx)) id ∧
      (Exchanged s id → id ∉ trxSentSince s
        ((s.modifyTrx start.id TransactionStatus.markKnownByPeer).send
          (.packedTransaction start.trx))) := by
  obtain ⟨p, hp, hpid⟩ := hs.table.trx start hstart hunknown
  have hkept := kept_markKnown s start.id
  generalize hs' : Session.send _ _ = s'
  have htable : s'.transactionStatus =
      (s.modifyTrx start.id TransactionStatus.markKnownByPeer).transactionStatus := by
    rw [← hs']
    rfl
  have hsent : s'.sentTrx = s.sentTrx ++ [start.id] := by
    rw [← hs', hp, ← hpid]
    simp [sentTrx, send, modifyTrx, BnetMessage.trx]
  have hheard : s'.heard = s.heard := by
    rw [← hs']
    rfl
  refine ⟨⟨⟨?_, ?_⟩, fun hexchanged => ?_⟩, fun hexchanged => ?_⟩
  · rw [htable]
    exact (hkept.table hs.table).nodup
  · rw [htable]
    exact (hkept.table hs.table).trx
  · rw [KnownEntry, htable]
    rw [Exchanged, hsent, hheard, List.mem_append, List.mem_singleton] at hexchanged
    by_cases hid : id = start.id
    · rw [hid]
      exact knownEntry_markKnown hstart rfl
    · refine hkept.known id (hs.known (hexchanged.imp_left fun h => h.resolve_right hid))
  · rw [trxSentSince, hsent, List.drop_left, List.mem_singleton]
    rintro rfl
    obtain ⟨stat, hstat, hid, hknown⟩ := hs.known hexchanged
    have heq := List.inj_on_of_nodup_map hs.table.nodup hstat hstart hid
    rw [heq, hunknown] at hknown
    cases hknown

theorem upkeep_send (now : Time) {msg : BnetMessage} (hmsg : msg.trx = none) (s : Session) :
    Upkeep now s (s.send msg) :=
  .of_eq rfl (by simp [sentTrx, send, hmsg]) rfl

/-- The next message does not send a transaction that has been exchanged. -/
theorem Tracked.maybeSendNextMessage (hs : Tracked s id) (ext : Externals)
    (hfresh : Exchanged s id → Fresh now s id) :
    Tracked (s.maybeSendNextMessage ext now) id ∧
      (Exchanged s id → id ∉ trxSentSince s (s.maybeSendNextMessage ext now)) := by
  have hkept : ∀ {s₁ s₂ : Session}, Tracked s₁ id → Upkeep now s₁ s₂ → Tracked s₂ id ∧
      (Exchanged s₁ id → id ∉ trxSentSince s₁ s₂) := by
    intro s₁ s₂ hs₁ hup
    refine ⟨hup.tracked hs₁, fun _ => ?_⟩
    rw [hup.trxSentSince]
    exact List.not_mem_nil
  obtain ⟨-, heq⟩ | ⟨-, hnext⟩ := s.maybeSendNextMessage_cases ext now
  · rw [heq]
    exact hkept hs (.of_eq rfl rfl rfl)
  · generalize s.maybeSendNextMessage ext now = s' at hnext ⊢
    have hclear := hs.clearExpiredTrx hfresh
    have hdone : Tracked s' id ∧ (Exchanged (s.clearExpiredTrx now) id →
        id ∉ trxSentSince (s.clearExpiredTrx now) s') := by
      cases hnext with
      | notice => exact hkept hclear ((upkeep_send now rfl _).trans (.of_eq rfl rfl rfl))
      | pong => exact hkept hclear ((upkeep_send now rfl _).trans (.of_eq rfl rfl rfl))
      | ping =>
          refine hkept hclear (Upkeep.trans ?_ (upkeep_send now rfl _))
          exact .of_eq rfl rfl rfl
      | unanswered => exact hkept hclear (.of_eq rfl rfl rfl)
      | unknown => exact hkept hclear (.of_eq rfl rfl rfl)
      | fetch => exact hkept hclear (.of_eq rfl rfl rfl)
      | trx _ _ _ start hstart hunknown => exact hclear.sendTrx hstart hunknown
      | nothing => exact hkept hclear (.of_eq rfl rfl rfl)
    exact hdone

/-! ### Steps -/

variable {s₁ : Session}

theorem Tracked.says (hs : Tracked s id) (hup : Upkeep now s s₁)
    (hfresh : Exchanged s id → Fresh now s id) :
    Tracked (s₁.maybeSendNextMessage ext now) id ∧
      (Exchanged s id → id ∉ trxSentSince s (s₁.maybeSendNextMessage ext now)) := by
  obtain ⟨htracked, hsent⟩ := (hup.tracked hs).maybeSendNextMessage ext
    fun hexchanged => hup.fresh id (hfresh (hup.exchanged.mp hexchanged))
  rw [trxSentSince, hup.sentTrx] at hsent
  exact ⟨htracked, fun hexchanged => hsent (hup.exchanged.mpr hexchanged)⟩

theorem Tracked.keeps (hs : Tracked s id) (hkept : Kept s s') :
    Tracked s' id ∧ (Exchanged s id → id ∉ trxSentSince s s') := by
  refine ⟨hkept.tracked hs, fun _ => ?_⟩
  rw [hkept.trxSentSince]
  exact List.not_mem_nil

theorem Tracked.onAcceptedTransaction (hs : Tracked s id)
    (hfresh : Exchanged s id → Fresh now s id) (t : PackedTransaction) :
    Tracked (s.onAcceptedTransaction ext now t) id ∧
      (Exchanged s id → id ∉ trxSentSince s (s.onAcceptedTransaction ext now t)) := by
  unfold Session.onAcceptedTransaction
  split
  · split
    · exact hs.keeps (kept_setExpired s t.id _)
    · exact hs.keeps (kept_refl s)
  · next hnone =>
      exact hs.says (upkeep_insert hnone (fun _ => ⟨t, rfl, rfl⟩) (le_add_seconds now 5)) hfresh

theorem upkeep_onNewLib (ext : Externals) (now : Time) (s : Session) (b : SignedBlock) :
    ∃ s₁, Upkeep now s s₁ ∧ s.onNewLib ext now b = s₁.maybeSendNextMessage ext now := by
  obtain ⟨notices, heq⟩ := onNewLib_cases ext now s b
  refine ⟨_, ?_, heq⟩
  exact .of_eq rfl rfl rfl

theorem upkeep_onAcceptedBlockHeader (s : Session) (b : SignedBlock) :
    Upkeep now s (s.onAcceptedBlockHeader now b) := by
  obtain ⟨notices, heq | heq⟩ := onAcceptedBlockHeader_cases now s b
  · rw [heq]
    exact .of_eq rfl rfl rfl
  · rw [heq]
    exact .of_eq rfl rfl rfl

theorem Tracked.onAcceptedBlock (hs : Tracked s id) (hfresh : Exchanged s id → Fresh now s id)
    {b : SignedBlock} (hnot : Exchanged s id → id ∉ b.transactions) :
    Tracked (s.onAcceptedBlock ext now b) id ∧
      (Exchanged s id → id ∉ trxSentSince s (s.onAcceptedBlock ext now b)) := by
  unfold Session.onAcceptedBlock
  dsimp only
  generalize hs₁ : (if ext.numFromId b.id < s.lastSentBlockNum then _ else _ : Session) = s₁
  have hup : Upkeep now s s₁ := by
    rw [← hs₁]
    split <;> exact .of_eq rfl rfl rfl
  have hfresh₁ : Exchanged s₁ id → Fresh now s₁ id :=
    fun hexchanged => hup.fresh id (hfresh (hup.exchanged.mp hexchanged))
  have hpurged := (hup.tracked hs).clearExpiredTrx hfresh₁
  have herased := hpurged.erase (p := fun stat => stat.id ∉ b.transactions)
    fun hexchanged stat _ hid => decide_eq_true (hid ▸ hnot (hup.exchanged.mp hexchanged))
  obtain ⟨htracked, hsent⟩ := herased.maybeSendNextMessage ext
    fun hexchanged stat hstat => hfresh₁ hexchanged stat
      (List.mem_filter.mp (List.mem_filter.mp hstat).1).1
  refine ⟨htracked, fun hexchanged => ?_⟩
  rw [trxSentSince, ← hup.sentTrx]
  exact hsent (hup.exchanged.mpr hexchanged)

theorem upkeep_onBlockNotice (s : Session) (ids : List BlockId) :
    Upkeep now s (s.onBlockNotice ext ids) :=
  .foldl (fun s id => upkeep_markBlockStatus ext now s id true false) ids s

theorem upkeep_onHello (s : Session) (hi : Hello) (extensions : List ℕ) :
    Upkeep now s (s.onHello ext hi extensions) := by
  obtain ⟨-, heq⟩ | ⟨irreversibleOnly, heq⟩ := onHello_cases ext s hi extensions
  · rw [heq]
    exact .of_eq rfl rfl rfl
  · rw [heq]
    refine Upkeep.trans ?_ (upkeep_onBlockNotice _ _)
    exact .of_eq rfl rfl rfl

theorem upkeep_on {msg : BnetMessage} (hon : s.on ext now msg = some s') : Upkeep now s s' := by
  cases reads_of_on hon with
  | hello hi extensions => exact upkeep_onHello s hi extensions
  | blockNotice blockIds => exact upkeep_onBlockNotice s blockIds
  | signedBlock b =>
      exact (upkeep_markBlockStatus ext now s b.id true true).trans
        (upkeep_markBlockTransactionsKnownByPeer now _ b)
  | packedTransaction p =>
      obtain heq | heq := onPackedTransaction_cases ext now s p
      · rw [heq]
        exact .of_eq rfl rfl rfl
      · rw [heq]
        exact upkeep_markTransactionKnownByPeer now s p.id
  | ping p => exact .of_eq rfl rfl rfl
  | pong sent code =>
      unfold onPong
      split <;> exact .of_eq rfl rfl rfl

/-- The transactions that come with a message are known once it has been handled. -/
theorem knownEntry_on {msg : BnetMessage} (hon : s.on ext now msg = some s') (hid : id ∈ msg.trxIds)
    (hheeded : ∀ p, msg = .packedTransaction (some p) → ext.readOnly = false ∧ now ≤ p.expiration) :
    KnownEntry s' id := by
  cases reads_of_on hon with
  | signedBlock b => exact knownEntry_markBlockTransactionsKnownByPeer now hid _
  | packedTransaction p =>
      obtain ⟨hmode, hexpiration⟩ := hheeded p rfl
      rw [onPackedTransaction, hmode, if_neg Bool.false_ne_true, if_neg hexpiration.not_gt,
        List.mem_singleton.mp hid]
      exact knownEntry_markTransactionKnownByPeer now s p.id
  | _ => cases hid

theorem trxIds_of_on_eq_none {msg : BnetMessage} (hon : s.on ext now msg = none) : msg.trxIds = [] := by
  cases msg with
  | signedBlock b =>
      cases b with
      | none => rfl
      | some b => cases hon
  | packedTransaction p =>
      cases p with
      | none => rfl
      | some p => cases hon
  | _ => rfl

theorem Tracked.onMessage (hs : Tracked s id) {msg : BnetMessage}
    (hremembered : Exchanged s id ∨ id ∈ msg.trxIds →
      Fresh now s id ∧ Heeded ext s id (now, .message msg)) :
    Tracked (s.onMessage ext now msg) id ∧
      (Exchanged s id → id ∉ trxSentSince s (s.onMessage ext now msg)) := by
  unfold Session.onMessage
  dsimp only
  generalize hread : ({ s with heard := s.heard ++ [msg] } : Session) = s₁
  have htable : s₁.transactionStatus = s.transactionStatus := by rw [← hread]
  have hsent : s₁.sentTrx = s.sentTrx := by
    rw [← hread]
    rfl
  have hexchanged : Exchanged s₁ id ↔ Exchanged s id ∨ id ∈ msg.trxIds := by
    rw [Exchanged, hsent, ← hread, Exchanged, List.flatMap_append, List.mem_append,
      List.flatMap_singleton, or_assoc]
  have hknown : Exchanged s id → KnownEntry s₁ id := by
    rw [KnownEntry, htable]
    exact hs.known
  have hok : TableOk s₁ := ⟨htable ▸ hs.table.nodup, htable ▸ hs.table.trx⟩
  cases hon : s₁.on ext now msg with
  | none =>
      rw [trxIds_of_on_eq_none hon, or_iff_left List.not_mem_nil] at hexchanged
      refine ⟨⟨⟨hok.nodup, hok.trx⟩, fun h => hknown (hexchanged.mp h)⟩, fun _ => ?_⟩
      have hnone : s₁.doGoodbye.sentTrx = s.sentTrx := hsent
      rw [trxSentSince, hnone, List.drop_length]
      exact List.not_mem_nil
  | some s₂ =>
      have hup := upkeep_on hon
      have htracked : Tracked s₂ id := by
        refine ⟨hup.table hok, fun h => ?_⟩
        by_cases hbefore : Exchanged s id
        · exact hup.known id (hknown hbefore)
        · have hid := (hexchanged.mp (hup.exchanged.mp h)).resolve_left hbefore
          refine knownEntry_on hon hid ?_
          rintro p rfl
          exact (hremembered (.inr hid)).2.resolve_left hbefore
      have hfresh : Exchanged s₂ id → Fresh now s₂ id := by
        intro h
        refine hup.fresh id ?_
        rw [Fresh, htable]
        exact (hremembered (hexchanged.mp (hup.exchanged.mp h))).1
      obtain ⟨hafter, hnot⟩ := htracked.maybeSendNextMessage ext hfresh
      refine ⟨hafter, fun h => ?_⟩
      rw [trxSentSince, ← hsent, ← hup.sentTrx]
      exact hnot (hup.exchanged.mpr (hexchanged.mpr (.inl h)))

theorem Tracked.onAsyncGetBlock (hs : Tracked s id) (hfresh : Exchanged s id → Fresh now s id)
    (nextblock : Option SignedBlock) :
    Tracked (s.onAsyncGetBlock ext now nextblock) id ∧
      (Exchanged s id → id ∉ trxSentSince s (s.onAsyncGetBlock ext now nextblock)) := by
  cases nextblock with
  | none =>
      refine hs.says ?_ hfresh
      exact .of_eq rfl rfl rfl
  | some b =>
      unfold Session.onAsyncGetBlock
      dsimp only
      split
      · refine hs.says ?_ hfresh
        exact .of_eq rfl rfl rfl
      · split
        · refine hs.says ?_ hfresh
          exact .of_eq rfl rfl rfl
        · have hmark : Upkeep now s ({ s.markBlockStatus ext b.id true false with
              lastSentBlockId := b.id
              lastSentBlockNum := ext.numFromId b.id }.send (.signedBlock (some b))) := by
            refine (upkeep_markBlockStatus ext now s b.id true false).trans ?_
            refine Upkeep.trans ?_ (upkeep_send now rfl _)
            exact .of_eq rfl rfl rfl
          split
          · exact hs.keeps (hmark.trans (upkeep_markBlockTransactionsKnownByPeer now _ b)).toKept
          · exact hs.keeps hmark.toKept

theorem Tracked.step {e : Event} (hs : Tracked s id) (hok : s.step ext (now, e) = .ok s')
    (hremembered : Remembered ext s id (now, e)) :
    Tracked s' id ∧ (Exchanged s id → id ∉ trxSentSince s s') := by
  have hfresh : Exchanged s id → Fresh now s id := fun hexchanged => (hremembered (.inl hexchanged)).1
  cases (takes_of_step hok).2 with
  | acceptedTransaction t => exact hs.onAcceptedTransaction hfresh t
  | newLib b =>
      obtain ⟨s₁, hup, heq⟩ := upkeep_onNewLib ext now s b
      rw [heq]
      exact hs.says hup hfresh
  | badBlock b =>
      unfold onBadBlock
      split
      · exact hs.keeps (kept_doGoodbye s)
      · exact hs.keeps (kept_refl s)
  | acceptedBlockHeader b => exact hs.keeps (upkeep_onAcceptedBlockHeader s b).toKept
  | acceptedBlock b =>
      exact hs.onAcceptedBlock hfresh fun hexchanged => (hremembered (.inl hexchanged)).2
  | pendingBlockIds ids lib =>
      have hup : Upkeep now s { s with localLib := lib, sentRemoteHello := true } := .of_eq rfl rfl rfl
      exact hs.keeps (hup.trans (upkeep_send now rfl _)).toKept
  | asyncGetBlock nextblock =>
      have hup : Upkeep now s { s with fetching := none } := .of_eq rfl rfl rfl
      exact (hup.tracked hs).onAsyncGetBlock hfresh nextblock
  | write failed =>
      unfold onWrite
      split
      · exact hs.keeps (kept_doGoodbye s)
      · refine hs.says ?_ hfresh
        exact .of_eq rfl rfl rfl
  | message msg => exact hs.onMessage hremembered
  | fail => exact hs.keeps (kept_doGoodbye s)

theorem tracked_empty : Tracked {} id where
  table := ⟨List.nodup_nil, List.forall_mem_nil _⟩
  known hexchanged := by
    rcases hexchanged with h | h <;> cases h

/-- In every run, a transaction that has been sent to the peer or received from it is not sent
again, as long as its entry does not expire, no accepted block has it, and it was not ignored
when it came. -/
theorem not_resent (ext : Externals) (id : TransactionId) {es : List (Time × Event)}
    (hremembered : Rollback.Along (step ext) (fun s e _ => Remembered ext s id e) {} es) :
    Rollback.Along (step ext) (fun s _ s' => Exchanged s id → id ∉ trxSentSince s s') {} es := by
  refine Rollback.Along.of_invariant (I := fun s => Tracked s id)
    (fun s e s' hs hok hremembered => ?_) hremembered tracked_empty
  obtain ⟨now, e⟩ := e
  exact hs.step hok hremembered

/-! ### Some runs -/

/-- The times at which the transaction is accepted. -/
def acceptTimes (id : TransactionId) (es : List (Time × Event)) : List Time :=
  es.filterMap fun e =>
    match e.2 with
    | .acceptedTransaction t => if t.id = id then some e.1 else none
    | _ => none

/-- A session whose peer has the local head and wants transactions. -/
def caughtUp : List (Time × Event) :=
  [.newLib (blockOf 7), .acceptedBlock (blockOf 8), .pendingBlockIds [7, 8] 7,
    .message (.hello
      { lastIrrBlockNum := 7, pendingBlockIds := [7, 8], requestTransactions := true } []),
    .write false, .message (.pong 0 1), .write false, .asyncGetBlock (some (blockOf 8)),
    .asyncGetBlock (some (blockOf 8))].map fun e => (seconds 10, e)

/-- A transaction is sent and accepted again four seconds later. -/
def acceptedTwice : List (Time × Event) :=
  caughtUp ++ [(seconds 10, .acceptedTransaction ⟨1000, seconds 1000⟩), (seconds 10, .write false),
    (seconds 14, .acceptedTransaction ⟨1000, seconds 1000⟩)]

/-- Its entry has expired when it is accepted once more. -/
def acceptedThrice : List (Time × Event) :=
  acceptedTwice ++ [(seconds 16, .message (.ping { code := 5 })), (seconds 16, .write false),
    (seconds 18, .acceptedTransaction ⟨1000, seconds 1000⟩)]

theorem not_resent_twice : Rollback.Along (step numberedChain)
    (fun s _ s' => Exchanged s 1000 → 1000 ∉ trxSentSince s s') {} acceptedTwice :=
  not_resent numberedChain 1000 (by decide +kernel)

/-- The third acceptance comes four seconds after the second, and the transaction is sent
again. -/
theorem resent : (acceptTimes 1000 acceptedThrice).IsChain (fun t t' => t' < t + seconds 5) ∧
    ¬ Rollback.Along (step numberedChain) (fun s _ s' => Exchanged s 1000 → 1000 ∉ trxSentSince s s')
      {} (acceptedThrice ++ [(seconds 18, .write false)]) := by
  refine ⟨by decide +kernel, fun h => ?_⟩
  have hok : step numberedChain (Rollback.run (step numberedChain) {} acceptedThrice)
      (seconds 18, .write false) = .ok (Rollback.run (step numberedChain) {}
        (acceptedThrice ++ [(seconds 18, .write false)])) := by decide +kernel
  exact absurd (h.last hok) (by decide +kernel)

end Session

end Xidata.Bnet
