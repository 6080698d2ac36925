import Xidata.Library.Flooding

/-!
Transactions in a network of nodes.  A node passes on what its chain has accepted, to all peers
but those from which it has got it, and does so again when the answer of the chain comes over
the channel.  A peer may close the connection, be busy with a synchronization, or ask for
transactions; a node forgets transactions that are expired or in an irreversible block.
-/

namespace Xidata.Net

variable {ν τ : Type} [DecidableEq ν] [DecidableEq τ]

/-- A node and its chain: `applied` is what the chain has applied, some of it from blocks.  The
chain has not decided about `awaited`, and its answers in `acks` have not been read.  What the
node has passed on, and what it has not let in, is only for the record. -/
structure TransactionNode (ν τ : Type) where
  current : ν → Bool
  localTxns : List τ := []
  receivedTransactions : List (τ × ν) := []
  trxState : ν → List τ := fun _ => []
  awaited : List τ := []
  acks : List (τ × Bool) := []
  applied : List τ := []
  fromBlocks : List τ := []
  relayed : List τ := []
  refused : List τ := []

namespace TransactionNode

def bcastTransaction (n : TransactionNode ν τ) (id : τ) : TransactionNode ν τ × (ν → List τ) :=
  let skips := (n.receivedTransactions.filter fun p => p.1 = id).map Prod.snd
  let n := { n with receivedTransactions := n.receivedTransactions.filter fun p => p.1 ≠ id }
  if id ∈ n.localTxns then (n, fun _ => [])
  else
    let unknown := fun c => n.current c && c ∉ skips && id ∉ n.trxState c
    ({ n with
        localTxns := n.localTxns ++ [id]
        trxState := fun c => if unknown c then n.trxState c ++ [id] else n.trxState c
        relayed := n.relayed ++ [id] },
      fun c => if unknown c then [id] else [])

def rejectedTransaction (n : TransactionNode ν τ) (id : τ) : TransactionNode ν τ :=
  { n with receivedTransactions := n.receivedTransactions.filter fun p => p.1 ≠ id }

/-- What the chain has applied is not taken for refused when it comes again. -/
def refuse (n : TransactionNode ν τ) (id : τ) : TransactionNode ν τ :=
  if id ∈ n.applied then n else { n with refused := n.refused ++ [id] }

/-- A transaction in read-only mode or from the source of a sync is ignored. -/
def handlePackedTransaction (n : TransactionNode ν τ) (c : ν) (id : τ) (ignored : Bool) :
    TransactionNode ν τ :=
  if ignored then n.refuse id
  else if id ∈ n.localTxns then n
  else
    { n with
      receivedTransactions := n.receivedTransactions ++ [(id, c)]
      awaited := n.awaited ++ [id] }

/-- The chain takes the transaction or not, and publishes its answer. -/
def pushTransaction (n : TransactionNode ν τ) (id : τ) (accepted : Bool) : TransactionNode ν τ :=
  let n := { n with acks := n.acks ++ [(id, accepted)] }
  if accepted then { n with applied := n.applied ++ [id] } else n.refuse id

def respond (n : TransactionNode ν τ) (id : τ) (accepted : Bool) :
    TransactionNode ν τ × (ν → List τ) :=
  if accepted then n.bcastTransaction id else (n.rejectedTransaction id, fun _ => [])

/-- The callback of `accept_transaction`. -/
def verdict (n : TransactionNode ν τ) (id : τ) (accepted : Bool) :
    TransactionNode ν τ × (ν → List τ) :=
  ({ n with awaited := n.awaited.erase id }.pushTransaction id accepted).respond id accepted

/-- The next answer on the channel. -/
def transactionAck (n : TransactionNode ν τ) (id : τ) (accepted : Bool) :
    TransactionNode ν τ × (ν → List τ) :=
  { n with acks := n.acks.tail }.respond id accepted

def applyBlock (n : TransactionNode ν τ) (ids : List τ) : TransactionNode ν τ :=
  { n with applied := n.applied ++ ids, fromBlocks := n.fromBlocks ++ ids }

/-- `kept` and `keptOf` are what is neither expired nor in an irreversible block. -/
def expireTxns (n : TransactionNode ν τ) (kept : τ → Bool) (keptOf : ν → τ → Bool) :
    TransactionNode ν τ :=
  { n with
    localTxns := n.localTxns.filter kept
    trxState := fun c => (n.trxState c).filter (keptOf c) }

/-- What a peer gets that asks for transactions. -/
def txnSend (n : TransactionNode ν τ) (c : ν) (ids : List τ) : ν → List τ :=
  fun x => if x = c then ids.filter (· ∈ n.localTxns) else []

/-- The connection with a peer is closed, or the peer is synchronized over it. -/
def suspend (n : TransactionNode ν τ) (c : ν) (closed : Bool) : TransactionNode ν τ :=
  { n with
    current := Function.update n.current c false
    trxState := if closed then Function.update n.trxState c [] else n.trxState }

def resume (n : TransactionNode ν τ) (c : ν) : TransactionNode ν τ :=
  { n with current := Function.update n.current c true }

end TransactionNode

abbrev TransactionNet (ν τ : Type) := FloodNet ν (TransactionNode ν τ) τ

/-- Nodes that know no transactions, some of them with a connection between them. -/
def TransactionNet.init (τ : Type) (current : ν → ν → Bool) : TransactionNet ν τ :=
  { node := fun a => { current := current a }, lapsed := fun a c => !current a c }

/-- The chain does not apply a transaction twice.  A connection that is not current for a time
has lapsed, and may have lost some of what was on it. -/
inductive TransactionStep : TransactionNet ν τ → TransactionNet ν τ → Prop
  | packedTransaction {net : TransactionNet ν τ} (a b : ν) {id : τ} {rest : List τ}
      (ignored : Bool) (h : net.link a b = id :: rest) :
      TransactionStep net
        (net.receive a b ((net.node b).handlePackedTransaction a id ignored) fun _ => [])
  | verdict {net : TransactionNet ν τ} (b : ν) {id : τ} (accepted : Bool)
      (h : id ∈ (net.node b).awaited) (hchain : accepted → id ∉ (net.node b).applied) :
      TransactionStep net
        (net.act b ((net.node b).verdict id accepted).1 ((net.node b).verdict id accepted).2)
  | submit {net : TransactionNet ν τ} (b : ν) (id : τ) (accepted : Bool)
      (hchain : accepted → id ∉ (net.node b).applied) :
      TransactionStep net (net.act b ((net.node b).pushTransaction id accepted) fun _ => [])
  | transactionAck {net : TransactionNet ν τ} (b : ν) {id : τ} {accepted : Bool}
      {rest : List (τ × Bool)} (h : (net.node b).acks = (id, accepted) :: rest) :
      TransactionStep net
        (net.act b ((net.node b).transactionAck id accepted).1
          ((net.node b).transactionAck id accepted).2)
  | applyBlock {net : TransactionNet ν τ} (b : ν) (ids : List τ) :
      TransactionStep net (net.act b ((net.node b).applyBlock ids) fun _ => [])
  | expireTxns {net : TransactionNet ν τ} (b : ν) (kept : τ → Bool) (keptOf : ν → τ → Bool) :
      TransactionStep net (net.act b ((net.node b).expireTxns kept keptOf) fun _ => [])
  | request {net : TransactionNet ν τ} (b c : ν) (ids : List τ) :
      TransactionStep net (net.act b (net.node b) ((net.node b).txnSend c ids))
  | suspend {net : TransactionNet ν τ} (b c : ν) (closed : Bool) {l : List τ}
      (h : l.Sublist (net.link b c)) :
      TransactionStep net
        ((net.lapse b c l).act b ((net.node b).suspend c closed) fun _ => [])
  | resume {net : TransactionNet ν τ} (b c : ν) :
      TransactionStep net (net.act b ((net.node b).resume c) fun _ => [])

/-! ### What a node keeps -/

namespace TransactionNode

/-- What has been passed on has been applied, and the other way round but for what has come in a
block, what the answer is on the channel for, and what is in `pending`. -/
structure Sound (n : TransactionNode ν τ) (pending : List τ) : Prop where
  localTxns : ∀ id ∈ n.localTxns, id ∈ n.relayed
  trxState : ∀ c, ∀ id ∈ n.trxState c, id ∈ n.relayed
  relayed : ∀ id ∈ n.relayed, id ∈ n.applied
  acks : ∀ id, (id, true) ∈ n.acks → id ∈ n.applied
  applied : ∀ id ∈ n.applied,
    id ∈ n.relayed ∨ id ∈ n.fromBlocks ∨ (id, true) ∈ n.acks ∨ id ∈ pending

end TransactionNode

/-- A transaction has come to a node when its chain has applied it, is about to decide, or has
refused it. -/
def transactionView (ν τ : Type) : FloodNet.View ν (TransactionNode ν τ) τ where
  Knows n id := id ∈ n.applied ∨ id ∈ n.awaited ∨ id ∈ n.refused
  Passed n id := id ∈ n.relayed
  Origin n id c := (id, c) ∈ n.receivedTransactions
  Current n c := n.current c
  before _ := none

namespace TransactionNode

variable {n : TransactionNode ν τ} {id : τ} {c : ν}

omit [DecidableEq ν] [DecidableEq τ] in
/-- Nothing is passed on. -/
theorem passes_quiet {n n' : TransactionNode ν τ} {got : Option (ν × τ)}
    (hknows : ∀ m, (transactionView ν τ).Knows n m → (transactionView ν τ).Knows n' m)
    (hgot : ∀ a m, got = some (a, m) → (transactionView ν τ).Knows n' m)
    (horigin : ∀ p ∈ n'.receivedTransactions,
      p ∈ n.receivedTransactions ∨ got = some (p.2, p.1))
    (hrelayed : n'.relayed = n.relayed) :
    (transactionView ν τ).Passes n n' got fun _ => [] where
  knows := hknows
  gets := hgot
  origin m a hm := horigin (m, a) hm
  sends _ _ hm := absurd hm List.not_mem_nil
  passed m hm := .inl (show m ∈ n.relayed from hrelayed ▸ hm)
  before _ _ hm := absurd hm List.not_mem_nil

omit [DecidableEq ν] [DecidableEq τ] in
/-- Nothing comes from a peer either. -/
theorem passes_kept {n n' : TransactionNode ν τ}
    (hknows : ∀ m, (transactionView ν τ).Knows n m → (transactionView ν τ).Knows n' m)
    (hreceived : n'.receivedTransactions = n.receivedTransactions)
    (hrelayed : n'.relayed = n.relayed) :
    (transactionView ν τ).Passes n n' none fun _ => [] :=
  passes_quiet hknows (fun _ _ hgot => by cases hgot) (fun p hp => .inl (hreceived ▸ hp)) hrelayed

omit [DecidableEq ν] in
theorem mem_skips : c ∈ (n.receivedTransactions.filter fun p => p.1 = id).map Prod.snd ↔
    (id, c) ∈ n.receivedTransactions := by
  simp

omit [DecidableEq ν] in
theorem mem_filter_ne {p : τ × ν} (h : p ∈ n.receivedTransactions.filter fun p => p.1 ≠ id) :
    p ∈ n.receivedTransactions :=
  (List.mem_filter.mp h).1

theorem Sound.bcastTransaction (h : n.Sound [id]) (hid : id ∈ n.applied) :
    (n.bcastTransaction id).1.Sound [] ∧
      (transactionView ν τ).Passes n (n.bcastTransaction id).1 none (n.bcastTransaction id).2 := by
  unfold TransactionNode.bcastTransaction
  dsimp only
  split
  -- It has been passed on already, or it goes to all peers but those that it came from.
  · next hlocal =>
      constructor
      · refine ⟨h.localTxns, h.trxState, h.relayed, h.acks, fun x hx => ?_⟩
        obtain hr | hb | ha | hp := h.applied x hx
        · exact .inl hr
        · exact .inr (.inl hb)
        · exact .inr (.inr (.inl ha))
        · rw [List.mem_singleton.mp hp]
          exact .inl (h.localTxns id hlocal)
      · exact passes_quiet (fun _ hm => hm) (fun _ _ hgot => by cases hgot)
          (fun p hp => .inl (mem_filter_ne hp)) rfl
  · next hlocal =>
      have hrelayed : ∀ x, x ∈ n.relayed ++ [id] → x ∈ n.relayed ∨ x = id := fun x hx => by
        simpa using hx
      constructor
      · constructor
        · intro x hx
          exact List.mem_append.mpr ((List.mem_append.mp hx).imp_left (h.localTxns x))
        · intro c x hx
          dsimp only at hx
          split at hx
          · exact List.mem_append.mpr ((List.mem_append.mp hx).imp_left (h.trxState c x))
          · exact List.mem_append_left _ (h.trxState c x hx)
        · intro x hx
          obtain hr | rfl := hrelayed x hx
          · exact h.relayed x hr
          · exact hid
        · exact h.acks
        · intro x hx
          obtain hr | hb | ha | hp := h.applied x hx
          · exact .inl (List.mem_append_left _ hr)
          · exact .inr (.inl hb)
          · exact .inr (.inr (.inl ha))
          · exact .inl (List.mem_append_right _ hp)
      · constructor
        · exact fun _ hm => hm
        · exact fun _ _ hgot => by cases hgot
        · exact fun m a hm => .inl (mem_filter_ne hm)
        · intro c m hm
          dsimp only at hm
          split at hm
          · rw [List.mem_singleton.mp hm]
            exact .inl hid
          · cases hm
        · intro m hm
          by_cases hold : m ∈ n.relayed
          · exact .inl hold
          · obtain rfl := (hrelayed m hm).resolve_left hold
            refine .inr fun c hc => ?_
            by_cases horigin : (m, c) ∈ n.receivedTransactions
            · exact .inl horigin
            · have hskip := mt mem_skips.mp horigin
              -- A peer is taken to have only what has been passed on.
              have hstate : m ∉ n.trxState c := fun hstate => hold (h.trxState c m hstate)
              have hcurrent : n.current c = true := hc
              exact .inr (by simp [hcurrent, hskip, hstate])
        · exact fun _ _ _ _ hp => by cases hp

omit [DecidableEq ν] [DecidableEq τ] in
theorem Sound.mono {l l' : List τ} (h : n.Sound l) (hl : ∀ x ∈ l, x ∈ l') : n.Sound l' :=
  { h with
    applied := fun x hx =>
      (h.applied x hx).imp_right (Or.imp_right (Or.imp_right (hl x))) }

omit [DecidableEq ν] in
/-- What is refused is recorded, unless it is known. -/
theorem refuse_eq (n : TransactionNode ν τ) (id : τ) :
    ∃ l, n.refuse id = { n with refused := n.refused ++ l } ∧ (id ∈ n.applied ∨ id ∈ l) := by
  unfold refuse
  split
  · next h => exact ⟨[], by rw [List.append_nil], .inl h⟩
  · exact ⟨[id], rfl, .inr (List.mem_singleton_self id)⟩

omit [DecidableEq ν] in
theorem Sound.pushTransaction (h : n.Sound []) (id : τ) (accepted : Bool) :
    (n.pushTransaction id accepted).Sound [] ∧
      (accepted → id ∈ (n.pushTransaction id accepted).applied) := by
  unfold TransactionNode.pushTransaction
  cases accepted with
  | false =>
      obtain ⟨l, heq, -⟩ := refuse_eq { n with acks := n.acks ++ [(id, false)] } id
      dsimp only [Bool.false_eq_true]
      rw [if_neg (by simp), heq]
      refine ⟨⟨h.localTxns, h.trxState, h.relayed, fun x hx => ?_, fun x hx => ?_⟩, nofun⟩
      · exact h.acks x (by simpa using hx)
      · obtain hr | hb | ha | hp := h.applied x hx
        · exact .inl hr
        · exact .inr (.inl hb)
        · exact .inr (.inr (.inl (List.mem_append_left _ ha)))
        · cases hp
  | true =>
      refine ⟨⟨h.localTxns, h.trxState, fun x hx => ?_, fun x hx => ?_, fun x hx => ?_⟩, ?_⟩
      · exact List.mem_append_left _ (h.relayed x hx)
      · obtain hold | hnew := List.mem_append.mp hx
        · exact List.mem_append_left _ (h.acks x hold)
        · obtain rfl : x = id := by simpa using hnew
          exact List.mem_append_right _ (List.mem_singleton_self x)
      · obtain hold | hnew := List.mem_append.mp hx
        · obtain hr | hb | ha | hp := h.applied x hold
          · exact .inl hr
          · exact .inr (.inl hb)
          · exact .inr (.inr (.inl (List.mem_append_left _ ha)))
          · cases hp
        · obtain rfl : x = id := by simpa using hnew
          exact .inr (.inr (.inl (by simp)))
      · exact fun _ => List.mem_append_right _ (List.mem_singleton_self id)

omit [DecidableEq ν] in
/-- The chain lets the transaction in or not; either way it has come. -/
theorem knows_pushTransaction {n' : TransactionNode ν τ} (accepted : Bool)
    (happlied : n'.applied = n.applied) (hrefused : n'.refused = n.refused)
    (hawaited : ∀ m ∈ n.awaited, m = id ∨ m ∈ n'.awaited) {m : τ}
    (hm : (transactionView ν τ).Knows n m) :
    (transactionView ν τ).Knows (n'.pushTransaction id accepted) m := by
  unfold TransactionNode.pushTransaction
  cases accepted with
  | false =>
      obtain ⟨l, heq, hid⟩ := refuse_eq { n' with acks := n'.acks ++ [(id, false)] } id
      dsimp only [Bool.false_eq_true]
      rw [if_neg (by simp), heq]
      obtain ha | hw | hr := hm
      · exact .inl (by rwa [happlied])
      · obtain rfl | hw := hawaited m hw
        · exact hid.imp_right fun hid => .inr (List.mem_append_right _ hid)
        · exact .inr (.inl hw)
      · exact .inr (.inr (List.mem_append_left _ (by rwa [hrefused])))
  | true =>
      obtain ha | hw | hr := hm
      · exact .inl (List.mem_append_left _ (by rwa [happlied]))
      · obtain rfl | hw := hawaited m hw
        · exact .inl (List.mem_append_right _ (List.mem_singleton_self m))
        · exact .inr (.inl hw)
      · exact .inr (.inr (by rwa [hrefused]))

/-- The answer of the chain is passed on if it is a yes. -/
theorem Sound.respond {accepted : Bool} (h : n.Sound (if accepted then [id] else []))
    (hid : accepted → id ∈ n.applied) :
    (n.respond id accepted).1.Sound [] ∧
      (transactionView ν τ).Passes n (n.respond id accepted).1 none (n.respond id accepted).2 := by
  cases accepted with
  | false =>
      exact ⟨⟨h.localTxns, h.trxState, h.relayed, h.acks, h.applied⟩,
        passes_quiet (fun _ hm => hm) (fun _ _ hgot => by cases hgot)
          (fun p hp => .inl (mem_filter_ne hp)) rfl⟩
  | true => exact Sound.bcastTransaction h (hid rfl)

omit [DecidableEq ν] in
theorem relayed_pushTransaction (n : TransactionNode ν τ) (id : τ) (accepted : Bool) :
    (n.pushTransaction id accepted).relayed = n.relayed ∧
      (n.pushTransaction id accepted).receivedTransactions = n.receivedTransactions ∧
      (n.pushTransaction id accepted).current = n.current := by
  unfold pushTransaction
  cases accepted with
  | false =>
      obtain ⟨l, heq, -⟩ := refuse_eq { n with acks := n.acks ++ [(id, false)] } id
      dsimp only [Bool.false_eq_true]
      rw [if_neg (by simp), heq]
      exact ⟨rfl, rfl, rfl⟩
  | true => exact ⟨rfl, rfl, rfl⟩

omit [DecidableEq ν] in
theorem passes_pushTransaction (n' : TransactionNode ν τ) (accepted : Bool)
    (happlied : n'.applied = n.applied) (hrefused : n'.refused = n.refused)
    (hawaited : ∀ m ∈ n.awaited, m = id ∨ m ∈ n'.awaited)
    (hreceived : n'.receivedTransactions = n.receivedTransactions)
    (hrelayed : n'.relayed = n.relayed) :
    (transactionView ν τ).Passes n (n'.pushTransaction id accepted) none fun _ => [] := by
  obtain ⟨hr, ho, -⟩ := relayed_pushTransaction n' id accepted
  exact passes_kept
    (fun m hm => knows_pushTransaction accepted happlied hrefused hawaited hm)
    (ho.trans hreceived) (hr.trans hrelayed)

theorem current_respond (n : TransactionNode ν τ) (id : τ) (accepted : Bool) :
    (n.respond id accepted).1.current = n.current := by
  unfold respond bcastTransaction
  dsimp only
  split
  · split <;> rfl
  · rfl

theorem Sound.verdict (h : n.Sound []) (id : τ) (accepted : Bool) :
    (n.verdict id accepted).1.Sound [] ∧
      (transactionView ν τ).Passes n (n.verdict id accepted).1 none (n.verdict id accepted).2 := by
  obtain ⟨hsound, hid⟩ := Sound.pushTransaction (n := { n with awaited := n.awaited.erase id })
    ⟨h.localTxns, h.trxState, h.relayed, h.acks, h.applied⟩ id accepted
  obtain ⟨hsound', hpasses⟩ := Sound.respond (hsound.mono fun x hx => by cases hx) hid
  have hpush : (transactionView ν τ).Passes n
      ({ n with awaited := n.awaited.erase id }.pushTransaction id accepted) none fun _ => [] := by
    refine passes_pushTransaction _ accepted rfl rfl (fun m hm => ?_) rfl rfl
    by_cases heq : m = id
    · exact .inl heq
    · exact .inr ((List.mem_erase_of_ne heq).mpr hm)
  obtain ⟨hrelayed, -, hcurrent⟩ :=
    relayed_pushTransaction { n with awaited := n.awaited.erase id } id accepted
  refine ⟨hsound', hpush.trans hpasses (fun m hm => ?_) fun c hc => ?_⟩
  · exact (show m ∈ n.relayed from hrelayed ▸ hm)
  · exact (congrFun hcurrent c).trans hc

theorem Sound.transactionAck {accepted : Bool} {rest : List (τ × Bool)} (h : n.Sound [])
    (hacks : n.acks = (id, accepted) :: rest) :
    (n.transactionAck id accepted).1.Sound [] ∧
      (transactionView ν τ).Passes n (n.transactionAck id accepted).1 none
        (n.transactionAck id accepted).2 := by
  -- A yes that is read from the channel is what is left to be passed on.
  have hread : Sound { n with acks := n.acks.tail } (if accepted then [id] else []) := by
    rw [hacks]
    refine ⟨h.localTxns, h.trxState, h.relayed, fun x hx => h.acks x ?_, fun x hx => ?_⟩
    · rw [hacks]
      exact List.mem_cons_of_mem _ hx
    · obtain hr | hb | ha | hp := h.applied x hx
      · exact .inl hr
      · exact .inr (.inl hb)
      · rw [hacks] at ha
        obtain heq | ha := List.mem_cons.mp ha
        · obtain ⟨rfl, rfl⟩ := Prod.mk.inj heq
          exact .inr (.inr (.inr (List.mem_singleton_self x)))
        · exact .inr (.inr (.inl ha))
      · cases hp
  have hid : accepted → id ∈ n.applied := by
    rintro rfl
    exact h.acks id (hacks ▸ List.mem_cons_self)
  obtain ⟨hsound, hpasses⟩ := Sound.respond hread hid
  have htail : (transactionView ν τ).Passes n { n with acks := n.acks.tail } none fun _ => [] :=
    passes_kept (fun _ hm => hm) rfl rfl
  exact ⟨hsound, htail.trans hpasses (fun _ hm => hm) fun _ hc => hc⟩

omit [DecidableEq ν] in
theorem Sound.handlePackedTransaction (h : n.Sound []) (c : ν) (id : τ) (ignored : Bool) :
    (n.handlePackedTransaction c id ignored).Sound [] ∧
      (transactionView ν τ).Passes n (n.handlePackedTransaction c id ignored) (some (c, id))
        fun _ => [] := by
  unfold TransactionNode.handlePackedTransaction
  split
  · obtain ⟨l, heq, hid⟩ := refuse_eq n id
    rw [heq]
    refine ⟨⟨h.localTxns, h.trxState, h.relayed, h.acks, h.applied⟩,
      passes_quiet (fun m hm => ?_) (fun a m hgot => ?_) (fun p hp => .inl hp) rfl⟩
    · exact hm.imp_right (Or.imp_right (List.mem_append_left _))
    · obtain ⟨rfl, rfl⟩ := Prod.mk.inj (Option.some.inj hgot)
      exact hid.imp_right fun hl => .inr (List.mem_append_right _ hl)
  · split
    · next hlocal =>
        refine ⟨h, passes_quiet (fun _ hm => hm) (fun a m hgot => ?_) (fun _ hp => .inl hp) rfl⟩
        obtain ⟨rfl, rfl⟩ := Prod.mk.inj (Option.some.inj hgot)
        exact .inl (h.relayed _ (h.localTxns _ hlocal))
    · refine ⟨⟨h.localTxns, h.trxState, h.relayed, h.acks, h.applied⟩,
        passes_quiet (fun m hm => ?_) (fun a m hgot => ?_) (fun p hp => ?_) rfl⟩
      · exact hm.imp_right (Or.imp_left (List.mem_append_left _))
      · obtain ⟨rfl, rfl⟩ := Prod.mk.inj (Option.some.inj hgot)
        exact .inr (.inl (List.mem_append_right _ (List.mem_singleton_self _)))
      · refine (List.mem_append.mp hp).imp_right fun hnew => ?_
        rw [List.mem_singleton.mp hnew]

omit [DecidableEq ν] [DecidableEq τ] in
theorem Sound.applyBlock (h : n.Sound []) (ids : List τ) :
    (n.applyBlock ids).Sound [] ∧
      (transactionView ν τ).Passes n (n.applyBlock ids) none fun _ => [] := by
  refine ⟨⟨h.localTxns, h.trxState, fun x hx => ?_, fun x hx => ?_, fun x hx => ?_⟩,
    passes_kept (fun m hm => ?_) rfl rfl⟩
  · exact List.mem_append_left _ (h.relayed x hx)
  · exact List.mem_append_left _ (h.acks x hx)
  · obtain hold | hnew := List.mem_append.mp hx
    · exact (h.applied x hold).imp_right (Or.imp_left (List.mem_append_left _))
    · exact .inr (.inl (List.mem_append_right _ hnew))
  · exact hm.imp_left (List.mem_append_left _)

omit [DecidableEq ν] [DecidableEq τ] in
theorem Sound.expireTxns (h : n.Sound []) (kept : τ → Bool) (keptOf : ν → τ → Bool) :
    (n.expireTxns kept keptOf).Sound [] ∧
      (transactionView ν τ).Passes n (n.expireTxns kept keptOf) none fun _ => [] := by
  refine ⟨⟨fun x hx => ?_, fun c x hx => ?_, h.relayed, h.acks, h.applied⟩,
    passes_kept (fun _ hm => hm) rfl rfl⟩
  · exact h.localTxns x (List.mem_filter.mp hx).1
  · exact h.trxState c x (List.mem_filter.mp hx).1

/-- What a peer has asked for is sent only if it has been passed on. -/
theorem Sound.passes_txnSend (h : n.Sound []) (c : ν) (ids : List τ) :
    (transactionView ν τ).Passes n n none (n.txnSend c ids) where
  knows _ hm := hm
  gets _ _ hgot := by cases hgot
  origin _ _ hm := .inl hm
  sends x m hm := by
    unfold txnSend at hm
    split at hm
    · have hlocal := of_decide_eq_true (List.mem_filter.mp hm).2
      exact .inl (h.relayed m (h.localTxns m hlocal))
    · cases hm
  passed _ hm := .inl hm
  before _ _ _ _ hp := by cases hp

omit [DecidableEq τ] in
theorem Sound.suspend (h : n.Sound []) (c : ν) (closed : Bool) :
    (n.suspend c closed).Sound [] ∧
      (transactionView ν τ).Passes n (n.suspend c closed) none fun _ => [] := by
  refine ⟨⟨h.localTxns, fun x m hm => ?_, h.relayed, h.acks, h.applied⟩,
    passes_kept (fun _ hm => hm) rfl rfl⟩
  unfold TransactionNode.suspend at hm
  dsimp only at hm
  split at hm
  · by_cases hx : x = c
    · rw [hx, Function.update_self] at hm
      cases hm
    · rw [Function.update_of_ne hx] at hm
      exact h.trxState x m hm
  · exact h.trxState x m hm

omit [DecidableEq τ] in
theorem Sound.resume (h : n.Sound []) (c : ν) :
    (n.resume c).Sound [] ∧ (transactionView ν τ).Passes n (n.resume c) none fun _ => [] :=
  ⟨⟨h.localTxns, h.trxState, h.relayed, h.acks, h.applied⟩,
    passes_kept (fun _ hm => hm) rfl rfl⟩

end TransactionNode

/-! ### What the network keeps -/

namespace TransactionNet

structure Inv (net : TransactionNet ν τ) : Prop where
  sound : ∀ a, (net.node a).Sound []
  spreads : (transactionView ν τ).Spreads net

omit [DecidableEq ν] [DecidableEq τ] in
theorem inv_init (current : ν → ν → Bool) : Inv (init τ current) where
  sound a :=
    { localTxns := fun _ hid => by cases hid
      trxState := fun _ _ hid => by cases hid
      relayed := fun _ hid => by cases hid
      acks := fun _ hid => by cases hid
      applied := fun _ hid => by cases hid }
  spreads :=
    { sent := fun _ _ _ hm => by cases hm
      origin := fun _ _ _ hm => by cases hm
      current := fun a c hlapsed => Bool.not_eq_false' .. |>.mp hlapsed
      reaches := fun _ _ _ _ hm => by cases hm
      inOrder := fun _ _ _ _ _ _ _ _ hp => by cases hp }

variable {net net' : TransactionNet ν τ} {b : ν} {n : TransactionNode ν τ} {out : ν → List τ}

omit [DecidableEq τ] in
theorem Inv.sound_update (h : net.Inv) (hn : n.Sound []) (a : ν) :
    (Function.update net.node b n a).Sound [] := by
  by_cases ha : a = b
  · subst ha
    rwa [Function.update_self]
  · rw [Function.update_of_ne ha]
    exact h.sound a

omit [DecidableEq τ] in
theorem Inv.act (h : net.Inv)
    (hn : n.Sound [] ∧ (transactionView ν τ).Passes (net.node b) n none out)
    (hcurrent : ∀ c, net.lapsed b c = false → (net.node b).current c → n.current c) :
    Inv (net.act b n out) where
  sound := h.sound_update hn.1
  spreads := h.spreads.act hn.2 hcurrent

theorem Inv.step (h : net.Inv) (hstep : TransactionStep net net') : net'.Inv := by
  cases hstep with
  | packedTransaction a b ignored hlink =>
      obtain ⟨hsound, hpasses⟩ := (h.sound b).handlePackedTransaction a _ ignored
      refine ⟨h.sound_update hsound, h.spreads.receive hlink hpasses fun c _ hc => ?_⟩
      change TransactionNode.current _ c = true
      unfold TransactionNode.handlePackedTransaction TransactionNode.refuse
      split
      · split <;> exact hc
      · split <;> exact hc
  | verdict b accepted hmem hchain =>
      refine h.act ((h.sound b).verdict _ accepted) fun c _ hc => ?_
      rw [TransactionNode.verdict, TransactionNode.current_respond]
      exact (congrFun (TransactionNode.relayed_pushTransaction _ _ accepted).2.2 c).trans hc
  | submit b id accepted hchain =>
      refine h.act ⟨((h.sound b).pushTransaction id accepted).1,
        TransactionNode.passes_pushTransaction _ accepted rfl rfl (fun _ => .inr) rfl rfl⟩
        fun c _ hc => ?_
      exact (congrFun (TransactionNode.relayed_pushTransaction _ _ accepted).2.2 c).trans hc
  | transactionAck b hacks =>
      refine h.act ((h.sound b).transactionAck hacks) fun c _ hc => ?_
      rw [TransactionNode.transactionAck, TransactionNode.current_respond]
      exact hc
  | applyBlock b ids => exact h.act ((h.sound b).applyBlock ids) fun _ _ hc => hc
  | expireTxns b kept keptOf =>
      exact h.act ((h.sound b).expireTxns kept keptOf) fun _ _ hc => hc
  | request b c ids =>
      exact h.act ⟨h.sound b, (h.sound b).passes_txnSend c ids⟩ fun _ _ hc => hc
  | suspend b c closed hsub =>
      -- The link lapses before the node forgets about the peer.
      have hlapse : Inv (net.lapse b c _) :=
        ⟨h.sound, h.spreads.lapse fun m hm => h.spreads.sent b c m (hsub.subset hm)⟩
      refine hlapse.act ((h.sound b).suspend c closed) fun x hlapsed hc => ?_
      have hx : x ≠ c := fun hx => by simp [FloodNet.lapse, hx] at hlapsed
      exact (Function.update_of_ne hx ..).trans hc
  | resume b c =>
      refine h.act ((h.sound b).resume c) fun x _ hc => ?_
      by_cases hx : x = c
      · rw [hx]
        exact Function.update_self ..
      · exact (Function.update_of_ne hx ..).trans hc

end TransactionNet

end Xidata.Net
