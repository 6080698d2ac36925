import Xidata.Library.Flooding

/-!
Blocks in a network of nodes.  A node sends a block to all peers but those from which it has got
it when its chain signals that the block is accepted, and the chain does that for a block only
after the one before it.  Blocks are also sent to a peer that is behind, and to one that asks for
them; these are not in this order.
-/

namespace Xidata.Net

variable {ν β : Type} [DecidableEq ν] [DecidableEq β]

/-- A node and its chain.  What the chain has signalled, and what it has refused, is only for the
record. -/
structure BlockNode (ν β : Type) where
  current : ν → Bool
  receivedBlocks : List (β × ν) := []
  known : List β
  signalled : List β
  refused : List β := []

namespace BlockNode

def bcastBlock (n : BlockNode ν β) (id : β) : BlockNode ν β × (ν → List β) :=
  let skips := (n.receivedBlocks.filter fun p => p.1 = id).map Prod.snd
  ({ n with
      receivedBlocks := n.receivedBlocks.filter fun p => p.1 ≠ id
      signalled := n.signalled ++ [id] },
    fun c => if n.current c && c ∉ skips then [id] else [])

def handleSignedBlock (n : BlockNode ν β) (c : ν) (id : β) (accepted : Bool) : BlockNode ν β :=
  if id ∈ n.known then n
  else
    let n := { n with receivedBlocks := n.receivedBlocks ++ [(id, c)] }
    if accepted then { n with known := n.known ++ [id] }
    else { n with refused := n.refused ++ [id] }

def produce (n : BlockNode ν β) (id : β) : BlockNode ν β := { n with known := n.known ++ [id] }

def setCurrent (n : BlockNode ν β) (c : ν) (current : Bool) : BlockNode ν β :=
  { n with current := Function.update n.current c current }

end BlockNode

abbrev BlockNet (ν β : Type) := FloodNet ν (BlockNode ν β) β

/-- Nodes with the same blocks, some of them with a connection between them. -/
def BlockNet.init (start : List β) (current : ν → ν → Bool) : BlockNet ν β :=
  { node := fun a => { current := current a, known := start, signalled := start }
    lapsed := fun a c => !current a c }

/-- The block is not unlinkable for the node. -/
def Linkable (previous : β → Option β) (n : BlockNode ν β) (id : β) : Prop :=
  ∀ p, previous id = some p → p ∈ n.known

/-- The chain takes the blocks that are linkable.  It builds on blocks that it has signalled, and
signals a block after the one before it. -/
inductive BlockStep (previous : β → Option β) : BlockNet ν β → BlockNet ν β → Prop
  | signedBlock {net : BlockNet ν β} (a b : ν) {id : β} {rest : List β} (accepted : Bool)
      (h : net.link a b = id :: rest) (hchain : accepted ↔ Linkable previous (net.node b) id) :
      BlockStep previous net
        (net.receive a b ((net.node b).handleSignedBlock a id accepted) fun _ => [])
  | produce {net : BlockNet ν β} (b : ν) (id : β)
      (hchain : ∀ p, previous id = some p → p ∈ (net.node b).signalled) :
      BlockStep previous net (net.act b ((net.node b).produce id) fun _ => [])
  | acceptedBlock {net : BlockNet ν β} (b : ν) {id : β} (h : id ∈ (net.node b).known)
      (hchain : ∀ p, previous id = some p → p ∈ (net.node b).signalled) :
      BlockStep previous net
        (net.act b ((net.node b).bcastBlock id).1 ((net.node b).bcastBlock id).2)

/-- Connections are closed and opened, and used for other blocks than those that are signalled;
these have lapsed. -/
inductive BlockChange (previous : β → Option β) : BlockNet ν β → BlockNet ν β → Prop
  | step {net net' : BlockNet ν β} (h : BlockStep previous net net') :
      BlockChange previous net net'
  | lapse {net : BlockNet ν β} (b c : ν) (current : Bool) {l : List β}
      (h : ∀ id ∈ l, id ∈ (net.node b).known ∨ id ∈ net.link b c) :
      BlockChange previous net
        ((net.lapse b c l).act b ((net.node b).setCurrent c current) fun _ => [])

/-- A block has come to a node when it is in its chain, or has been refused. -/
def blockView (ν : Type) {β : Type} (previous : β → Option β) :
    FloodNet.View ν (BlockNode ν β) β where
  Knows n id := id ∈ n.known ∨ id ∈ n.refused
  Passed n id := id ∈ n.signalled
  Origin n id c := (id, c) ∈ n.receivedBlocks
  Current n c := n.current c
  before := previous

namespace BlockNode

variable {n : BlockNode ν β} {id : β} {previous : β → Option β}

theorem passes_bcastBlock (h : id ∈ n.known)
    (hchain : ∀ p, previous id = some p → p ∈ n.signalled) :
    (blockView ν previous).Passes n (n.bcastBlock id).1 none (n.bcastBlock id).2 where
  knows _ hm := hm
  gets _ _ hgot := by cases hgot
  origin _ _ hm := .inl (List.mem_filter.mp hm).1
  sends c m hm := by
    unfold bcastBlock at hm
    dsimp only at hm
    split at hm
    · rw [List.mem_singleton.mp hm]
      exact .inl h
    · cases hm
  passed m hm := by
    obtain hold | hnew := List.mem_append.mp hm
    · exact .inl hold
    · obtain rfl := List.mem_singleton.mp hnew
      refine .inr fun c hc => ?_
      -- Only those that the block came from are skipped.
      by_cases horigin : (m, c) ∈ n.receivedBlocks
      · exact .inl horigin
      · have hcurrent : n.current c = true := hc
        exact .inr (by simp [bcastBlock, hcurrent, horigin])
  before c m hm p hp := by
    unfold bcastBlock at hm
    dsimp only at hm
    split at hm
    · exact hchain p (List.mem_singleton.mp hm ▸ hp)
    · cases hm

omit [DecidableEq ν] in
theorem passes_handleSignedBlock (c : ν) (id : β) (accepted : Bool) :
    (blockView ν previous).Passes n (n.handleSignedBlock c id accepted) (some (c, id))
      fun _ => [] := by
  have hquiet : ∀ n' : BlockNode ν β, n'.signalled = n.signalled →
      (∀ m, m ∈ n.known ∨ m ∈ n.refused → m ∈ n'.known ∨ m ∈ n'.refused) →
      (id ∈ n'.known ∨ id ∈ n'.refused) →
      (∀ p ∈ n'.receivedBlocks, p ∈ n.receivedBlocks ∨ p = (id, c)) →
      (blockView ν previous).Passes n n' (some (c, id)) fun _ => [] :=
    fun n' hsignalled hknows hid horigin =>
      { knows := hknows
        gets := fun a m hgot => by
          obtain ⟨rfl, rfl⟩ := Prod.mk.inj (Option.some.inj hgot)
          exact hid
        origin := fun m a hm => (horigin (m, a) hm).imp_right fun heq => by
          obtain ⟨rfl, rfl⟩ := Prod.mk.inj heq
          rfl
        sends := fun _ _ hm => absurd hm List.not_mem_nil
        passed := fun m hm => .inl (show m ∈ n.signalled from hsignalled ▸ hm)
        before := fun _ _ hm => absurd hm List.not_mem_nil }
  unfold handleSignedBlock
  split
  · next hknown => exact hquiet n rfl (fun _ hm => hm) (.inl hknown) fun _ hp => .inl hp
  · dsimp only
    have horigin : ∀ p ∈ n.receivedBlocks ++ [(id, c)], p ∈ n.receivedBlocks ∨ p = (id, c) :=
      fun p hp => by simpa using hp
    split
    · exact hquiet _ rfl (fun m => Or.imp_left (List.mem_append_left _)) (.inl (by simp)) horigin
    · exact hquiet _ rfl (fun m => Or.imp_right (List.mem_append_left _)) (.inr (by simp)) horigin

omit [DecidableEq ν] [DecidableEq β] in
theorem passes_produce (id : β) :
    (blockView ν previous).Passes n (n.produce id) none fun _ => [] where
  knows _ hm := hm.imp_left (List.mem_append_left _)
  gets _ _ hgot := by cases hgot
  origin _ _ hm := .inl hm
  sends _ _ hm := absurd hm List.not_mem_nil
  passed _ hm := .inl hm
  before _ _ hm := absurd hm List.not_mem_nil

omit [DecidableEq β] in
theorem passes_setCurrent (c : ν) (current : Bool) :
    (blockView ν previous).Passes n (n.setCurrent c current) none fun _ => [] where
  knows _ hm := hm
  gets _ _ hgot := by cases hgot
  origin _ _ hm := .inl hm
  sends _ _ hm := absurd hm List.not_mem_nil
  passed _ hm := .inl hm
  before _ _ hm := absurd hm List.not_mem_nil

omit [DecidableEq ν] in
theorem current_handleSignedBlock (n : BlockNode ν β) (c : ν) (id : β) (accepted : Bool) :
    (n.handleSignedBlock c id accepted).current = n.current := by
  unfold handleSignedBlock
  dsimp only
  split
  · rfl
  · split <;> rfl

end BlockNode

namespace BlockNet

variable {previous : β → Option β} {start : List β} {current : ν → ν → Bool}
  {net net' : BlockNet ν β}

omit [DecidableEq ν] [DecidableEq β] in
theorem spreads_init (start : List β) (current : ν → ν → Bool) :
    (blockView ν previous).Spreads (init start current) where
  sent _ _ _ hm := by cases hm
  origin _ _ _ hm := by cases hm
  current _ _ hlapsed := Bool.not_eq_false' .. |>.mp hlapsed
  reaches _ _ _ _ hm := .inl (.inl hm)
  inOrder _ _ first m rest _ hlink := by simp [init] at hlink

theorem spreads_step (h : (blockView ν previous).Spreads net)
    (hstep : BlockStep previous net net') : (blockView ν previous).Spreads net' := by
  cases hstep with
  | signedBlock a b accepted hlink hchain =>
      exact h.receive hlink (BlockNode.passes_handleSignedBlock a _ accepted) fun c _ hc =>
        (congrFun (BlockNode.current_handleSignedBlock _ a _ accepted) c).trans hc
  | produce b id hchain => exact h.act (BlockNode.passes_produce id) fun _ _ hc => hc
  | acceptedBlock b hmem hchain =>
      exact h.act (BlockNode.passes_bcastBlock hmem hchain) fun _ _ hc => hc

theorem spreads_change (h : (blockView ν previous).Spreads net)
    (hchange : BlockChange previous net net') : (blockView ν previous).Spreads net' := by
  cases hchange with
  | step hstep => exact spreads_step h hstep
  | lapse b c current hl =>
      refine (h.lapse fun id hid => ?_).act (BlockNode.passes_setCurrent c current)
        fun x hlapsed hx => ?_
      · exact (hl id hid).elim .inl (h.sent b c id)
      · have hne : x ≠ c := fun hx => by simp [FloodNet.lapse, hx] at hlapsed
        exact (Function.update_of_ne hne ..).trans hx

theorem spreads_reached
    (h : Relation.ReflTransGen (BlockChange previous) (init start current) net) :
    (blockView ν previous).Spreads net := by
  induction h with
  | refl => exact spreads_init start current
  | tail _ hchange ih => exact spreads_change ih hchange

/-- Blocks come in order.  Over a connection that has not lapsed, no block comes to a node before
the node has the one before it or has refused that; and all that has been signalled gets there. -/
theorem blocks_in_order
    (h : Relation.ReflTransGen (BlockChange previous) (init start current) net) :
    (∀ a c id rest, net.lapsed a c = false → net.link a c = id :: rest →
      ∀ p, previous id = some p → p ∈ (net.node c).known ∨ p ∈ (net.node c).refused) ∧
    ∀ a c id, net.lapsed a c = false → id ∈ (net.node a).signalled →
      id ∈ (net.node c).known ∨ id ∈ (net.node c).refused ∨ id ∈ net.link a c := by
  have hspreads := spreads_reached h
  constructor
  · intro a c id rest hlapsed hlink p hp
    exact hspreads.next_inOrder hlapsed hlink hp
  · intro a c id hlapsed hid
    exact or_assoc.mp (hspreads.reaches a c id hlapsed hid)

/-- One node produces two blocks after the block `0`, and the other one gets the first of them. -/
theorem blocks_in_order_twoNodes : ∃ net : BlockNet Bool ℕ,
    Relation.ReflTransGen (BlockChange fun n => some (n - 1)) (init [0] fun a c => a != c) net ∧
      net.link false true = [2] ∧
      (1 ∈ (net.node true).known ∨ 1 ∈ (net.node true).refused) := by
  have h₀ : Relation.ReflTransGen (BlockChange fun n => some (n - 1))
      (init [0] fun a c : Bool => a != c) _ := .refl
  have h₁ := h₀.tail (.step (.produce false 1 fun p hp => Option.some.inj hp ▸ by decide))
  have h₂ := h₁.tail (.step (.acceptedBlock false (show 1 ∈ _ by decide)
    fun p hp => Option.some.inj hp ▸ by decide))
  have h₃ := h₂.tail (.step (.produce false 2 fun p hp => Option.some.inj hp ▸ by decide))
  have h₄ := h₃.tail (.step (.acceptedBlock false (show 2 ∈ _ by decide)
    fun p hp => Option.some.inj hp ▸ by decide))
  have h₅ := h₄.tail (.step (.signedBlock false true true rfl
    ⟨fun _ p hp => Option.some.inj hp ▸ by decide, fun _ => rfl⟩))
  exact ⟨_, h₅, rfl, (blocks_in_order h₅).1 false true 2 [] rfl rfl 1 rfl⟩

/-! ### A network whose connections stay -/

/-- Nothing has lapsed that is in use, and nothing has been refused. -/
structure Steady (net : BlockNet ν β) : Prop where
  links : ∀ a c, ∀ id ∈ net.link a c, net.lapsed a c = false
  current : ∀ a c, (net.node a).current c → net.lapsed a c = false
  refused : ∀ a, (net.node a).refused = []

omit [DecidableEq β] in
theorem Steady.move {b : ν} {n : BlockNode ν β} {rest : ν → ν → List β} {out : ν → List β}
    (h : net.Steady) (hcurrent : n.current = (net.node b).current)
    (hrest : ∀ x y, ∀ id ∈ rest x y, id ∈ net.link x y)
    (hout : ∀ c, ∀ id ∈ out c, n.current c) (hrefused : n.refused = []) :
    Steady (net.move b n rest out) := by
  have hkept : ∀ c, n.current c → net.lapsed b c = false := fun c hc =>
    h.current b c (hcurrent ▸ hc)
  constructor
  · intro x y id hid
    obtain hold | hnew := List.mem_append.mp hid
    · exact h.links x y id (hrest x y id hold)
    · by_cases hx : x = b
      · rw [if_pos hx] at hnew
        exact hx ▸ hkept y (hout y id hnew)
      · rw [if_neg hx] at hnew
        cases hnew
  · intro x y hxy
    change (Function.update net.node b n x).current y at hxy
    by_cases hx : x = b
    · rw [hx, Function.update_self] at hxy
      exact hx ▸ hkept y hxy
    · rw [Function.update_of_ne hx] at hxy
      exact h.current x y hxy
  · intro x
    change (Function.update net.node b n x).refused = []
    by_cases hx : x = b
    · rwa [hx, Function.update_self]
    · rw [Function.update_of_ne hx]
      exact h.refused x

theorem Steady.step (h : net.Steady) (hspreads : (blockView ν previous).Spreads net)
    (hstep : BlockStep previous net net') : net'.Steady := by
  cases hstep with
  | @signedBlock a b id rest accepted hlink hchain =>
      -- The block before it has come, and has not been refused.
      have hlinkable : Linkable previous (net.node b) id := fun p hp => by
        have hlapsed := h.links a b id (hlink ▸ List.mem_cons_self)
        obtain hknown | hrefused := hspreads.next_inOrder hlapsed hlink hp
        · exact hknown
        · rw [h.refused b] at hrefused
          cases hrefused
      refine h.move (BlockNode.current_handleSignedBlock _ a id accepted) (fun x y id hid => ?_)
        (fun _ _ hid => by cases hid) ?_
      · split at hid
        · exact List.mem_of_mem_tail hid
        · exact hid
      · unfold BlockNode.handleSignedBlock
        rw [if_pos (hchain.mpr hlinkable)]
        split
        · exact h.refused b
        · exact h.refused b
  | produce b id hchain =>
      exact h.move rfl (fun _ _ _ hid => hid) (fun _ _ hid => by cases hid) (h.refused b)
  | acceptedBlock b hmem hchain =>
      refine h.move rfl (fun _ _ _ hid => hid) (fun c id hid => ?_) (h.refused b)
      unfold BlockNode.bcastBlock at hid
      dsimp only at hid
      split at hid
      · next hc => exact (Bool.and_eq_true_iff.mp hc).1
      · cases hid

/-- Where the connections stay as they are, no node ever refuses a block as unlinkable. -/
theorem no_block_unlinkable
    (h : Relation.ReflTransGen (BlockStep previous) (init start current) net) (a : ν) :
    (net.node a).refused = [] := by
  have hsteady : net.Steady ∧ (blockView ν previous).Spreads net := by
    induction h with
    | refl =>
        refine ⟨⟨fun _ _ _ hid => ?_, fun a c hc => ?_, fun _ => rfl⟩, spreads_init start current⟩
        · cases hid
        · simpa [init] using hc
    | tail _ hstep ih => exact ⟨ih.1.step ih.2 hstep, spreads_step ih.2 hstep⟩
  exact hsteady.1.refused a

theorem no_block_unlinkable_twoNodes : ∃ net : BlockNet Bool ℕ,
    Relation.ReflTransGen (BlockStep fun n => some (n - 1)) (init [0] fun a c => a != c) net ∧
      1 ∈ (net.node true).known ∧ (net.node true).refused = [] := by
  have h₀ : Relation.ReflTransGen (BlockStep fun n => some (n - 1))
      (init [0] fun a c : Bool => a != c) _ := .refl
  have h₁ := h₀.tail (.produce false 1 fun p hp => Option.some.inj hp ▸ by decide)
  have h₂ := h₁.tail (.acceptedBlock false (show 1 ∈ _ by decide)
    fun p hp => Option.some.inj hp ▸ by decide)
  have h₃ := h₂.tail (.signedBlock false true true rfl
    ⟨fun _ p hp => Option.some.inj hp ▸ by decide, fun _ => rfl⟩)
  exact ⟨_, h₃, by decide, no_block_unlinkable h₃ true⟩

end BlockNet

end Xidata.Net
