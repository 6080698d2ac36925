import Mathlib.Data.List.Chain
import Xidata.Net.BlockSpreading

/-!
A peer that is behind asks for the branch of the head.  It gets the blocks after the last
irreversible one, the oldest first; if there is a gap in them, it gets none.
-/

namespace Xidata.Net

variable {ν β : Type} [DecidableEq ν] [DecidableEq β]

structure BranchBlock (β : Type) where
  id : β
  previous : β
  deriving DecidableEq

inductive LookupFailure
  | assertException | otherException

/-- What the chain answers, or how it fails.  A block is not found either where the chain
throws. -/
structure ForkView (β : Type) where
  forkDbHeadBlockNum : ℕ
  lastIrreversibleBlockId : Except LookupFailure β
  forkDbHeadBlockId : Except LookupFailure β
  fetchBlockById : β → Option (BranchBlock β)

inductive BranchMessage (β : Type)
  | notice
  | block (b : BranchBlock β)
  deriving DecidableEq

/-- The blocks among the messages. -/
def sentIds (l : List (BranchMessage β)) : List β :=
  l.filterMap fun
    | .notice => none
    | .block b => some b.id

omit [DecidableEq β] in
@[simp] theorem sentIds_map_block (bs : List (BranchBlock β)) :
    sentIds (bs.map .block) = bs.map (·.id) := by
  simp [sentIds, List.filterMap_map]

namespace ForkView

variable (v : ForkView β) (nullId : β)

/-- The last irreversible block and the head.  A look-up that fails, but not by an assertion,
leaves what has not been looked up yet. -/
def ends : Option (β × β) :=
  match v.lastIrreversibleBlockId, v.forkDbHeadBlockId with
  | .ok libId, .ok headId => some (libId, headId)
  | .ok libId, .error .otherException => some (libId, nullId)
  | .error .otherException, _ => some (nullId, nullId)
  | .error .assertException, _ | .ok _, .error .assertException => none

/-- The loop back from the head, in the order in which it finds the blocks. -/
def bstack (libId : β) : ℕ → β → List (BranchBlock β)
  | 0, _ => []
  | turns + 1, bid =>
    if bid ≠ nullId ∧ bid ≠ libId then
      match v.fetchBlockById bid with
      | some b => b :: bstack libId turns b.previous
      | none => []
    else []

/-- What is sent, and whether the connection is syncing then. -/
def blkSendBranch (turns : ℕ) (syncing : Bool) : Bool × List (BranchMessage β) :=
  if v.forkDbHeadBlockNum = 0 then (syncing, [.notice])
  else
    match v.ends nullId with
    | none => (syncing, [.notice])
    | some (libId, headId) =>
      let bstack := v.bstack nullId libId turns headId
      match bstack.getLast? with
      | none => (false, [])
      | some last => (false, if last.previous = libId then bstack.reverse.map .block else [])

end ForkView

/-! ### What is sent -/

/-- What holds of a chain: a block is found under its id, and comes after the block before it. -/
structure ForkView.Sound (v : ForkView β) (nullId : β) (num : β → ℕ) : Prop where
  id : ∀ {id b}, v.fetchBlockById id = some b → b.id = id
  null : v.fetchBlockById nullId = none
  num : ∀ {id b}, v.fetchBlockById id = some b → num b.previous < num b.id

/-- The blocks after the last irreversible one up to the head, the oldest first. -/
inductive ForkView.Branch (v : ForkView β) (libId : β) : β → List (BranchBlock β) → Prop
  | lib : Branch v libId libId []
  | block {b : BranchBlock β} {bs : List (BranchBlock β)} (h : Branch v libId b.previous bs)
      (hfetch : v.fetchBlockById b.id = some b) (hlib : b.id ≠ libId) :
      Branch v libId b.id (bs ++ [b])

namespace ForkView

variable {v : ForkView β} {nullId libId headId : β} {num : β → ℕ} {bs : List (BranchBlock β)}
  {turns : ℕ}

theorem Branch.bstack_eq (h : v.Branch libId headId bs) (hv : v.Sound nullId num)
    (hturns : num headId < turns) : v.bstack nullId libId turns headId = bs.reverse := by
  induction h generalizing turns with
  | lib =>
      obtain ⟨turns, rfl⟩ := Nat.exists_eq_succ_of_ne_zero (Nat.ne_zero_of_lt hturns)
      simp [bstack]
  | @block b bs _ hfetch hlib ih =>
      obtain ⟨turns, rfl⟩ := Nat.exists_eq_succ_of_ne_zero (Nat.ne_zero_of_lt hturns)
      have hnull : b.id ≠ nullId := fun heq => by
        rw [heq, hv.null] at hfetch
        cases hfetch
      have hless := hv.num hfetch
      rw [bstack, if_pos ⟨hnull, hlib⟩, hfetch, List.reverse_append]
      exact congrArg (b :: ·) (ih (by omega))

omit [DecidableEq β] in
theorem Branch.eq_of_nil (h : v.Branch libId headId bs) (hbs : bs = []) : headId = libId := by
  cases h with
  | lib => rfl
  | block => exact absurd hbs (List.append_ne_nil_of_right_ne_nil _ (List.cons_ne_nil _ _))

omit [DecidableEq β] in
theorem Branch.previous_head (h : v.Branch libId headId bs) {first : BranchBlock β}
    (hfirst : bs.head? = some first) : first.previous = libId := by
  induction h with
  | lib => cases hfirst
  | @block b bs h _ _ ih =>
      cases bs with
      | nil =>
          obtain rfl := Option.some.inj hfirst
          exact h.eq_of_nil rfl
      | cons b' bs => exact ih hfirst

theorem branch_of_bstack (hv : v.Sound nullId num) {last : BranchBlock β}
    (hlast : (v.bstack nullId libId turns headId).getLast? = some last)
    (hprevious : last.previous = libId) :
    v.Branch libId headId (v.bstack nullId libId turns headId).reverse := by
  induction turns generalizing headId with
  | zero => cases hlast
  | succ turns ih =>
      rw [bstack] at hlast ⊢
      split at hlast
      · next hne =>
          rw [if_pos hne]
          cases hfetch : v.fetchBlockById headId with
          | none => simp [hfetch] at hlast
          | some b =>
              obtain rfl := hv.id hfetch
              simp only [hfetch] at hlast ⊢
              rw [List.reverse_cons]
              refine .block ?_ hfetch hne.2
              cases hrest : v.bstack nullId libId turns b.previous with
              | nil =>
                  rw [hrest] at hlast
                  obtain rfl := Option.some.inj hlast
                  exact hprevious ▸ .lib
              | cons b' rest =>
                  rw [← hrest]
                  refine ih ?_
                  rw [hrest] at hlast ⊢
                  rwa [List.getLast?_cons_cons] at hlast
      · cases hlast

/-- All of the branch is sent. -/
theorem Branch.sent (h : v.Branch libId headId bs) (hv : v.Sound nullId num)
    (hnum : v.forkDbHeadBlockNum ≠ 0) (hends : v.ends nullId = some (libId, headId))
    (hturns : num headId < turns) (syncing : Bool) :
    v.blkSendBranch nullId turns syncing = (false, bs.map .block) := by
  rw [blkSendBranch, if_neg hnum, hends]
  dsimp only
  rw [h.bstack_eq hv hturns, List.getLast?_reverse, List.reverse_reverse]
  cases hfirst : bs.head? with
  | none => rw [List.head?_eq_none_iff.mp hfirst, List.map_nil]
  | some first => simp only [h.previous_head hfirst, if_true]

/-- Blocks are sent exactly if they are the whole branch. -/
theorem branch_sent_iff (hv : v.Sound nullId num) (hnum : v.forkDbHeadBlockNum ≠ 0)
    (hends : v.ends nullId = some (libId, headId)) (hturns : num headId < turns) (syncing : Bool)
    (hbs : bs ≠ []) :
    (v.blkSendBranch nullId turns syncing).2 = bs.map .block ↔ v.Branch libId headId bs := by
  constructor
  · intro h
    have hinj : ∀ l : List (BranchBlock β), l.map BranchMessage.block = bs.map .block → l = bs :=
      fun l heq => List.map_injective_iff.mpr (fun _ _ h => BranchMessage.block.inj h) heq
    rw [blkSendBranch, if_neg hnum, hends] at h
    dsimp only at h
    cases hlast : (v.bstack nullId libId turns headId).getLast? with
    | none =>
        rw [hlast] at h
        exact absurd (List.map_eq_nil_iff.mp h.symm) hbs
    | some last =>
        simp only [hlast] at h
        split at h
        · next hprevious =>
            rw [← hinj _ h]
            exact branch_of_bstack hv hlast hprevious
        · exact absurd (List.map_eq_nil_iff.mp h.symm) hbs
  · exact fun h => congrArg Prod.snd (h.sent hv hnum hends hturns syncing)

/-- Two blocks after the last irreversible one. -/
def twoBlocks : ForkView ℕ where
  forkDbHeadBlockNum := 5
  lastIrreversibleBlockId := .ok 3
  forkDbHeadBlockId := .ok 5
  fetchBlockById id := if id = 0 then none else some ⟨id, id - 1⟩

theorem sound_twoBlocks : twoBlocks.Sound 0 id where
  id h := by
    simp only [twoBlocks, Option.ite_none_left_eq_some, Option.some.injEq] at h
    rw [← h.2]
  null := rfl
  num h := by
    simp only [twoBlocks, Option.ite_none_left_eq_some, Option.some.injEq] at h
    obtain ⟨hne, rfl⟩ := h
    exact Nat.sub_one_lt hne

theorem branch_sent_iff_twoBlocks : twoBlocks.Branch 3 5 [⟨4, 3⟩, ⟨5, 4⟩] :=
  (branch_sent_iff sound_twoBlocks (by decide) rfl (show id 5 < 6 by decide) true
    (List.cons_ne_nil _ _)).mp rfl

omit [DecidableEq β] in
/-- Each block names the one before it. -/
theorem Branch.isChain (h : v.Branch libId headId bs) {previous : β → Option β}
    (hprevious : ∀ {id b}, v.fetchBlockById id = some b →
      ∀ p, previous b.id = some p → p = b.previous) :
    List.IsChain (fun id id' => ∀ p, previous id' = some p → p = id) (libId :: bs.map (·.id)) ∧
      (libId :: bs.map (·.id)).getLast? = some headId := by
  induction h with
  | lib => exact ⟨.singleton _, rfl⟩
  | @block b bs _ hfetch _ ih =>
      rw [List.map_append, ← List.cons_append]
      refine ⟨List.isChain_append.mpr ⟨ih.1, .singleton _, ?_⟩, List.getLast?_concat⟩
      intro x hx y hy p hp
      rw [ih.2] at hx
      obtain rfl := Option.some.inj hx
      obtain rfl := Option.some.inj hy
      exact hprevious hfetch p hp

end ForkView

/-! ### The peer -/

/-- What happens at a node; its chain takes the blocks that are linkable. -/
inductive BlockNodeStep (previous : β → Option β) : BlockNode ν β → BlockNode ν β → Prop
  | signedBlock {n : BlockNode ν β} (c : ν) (id : β) (accepted : Bool)
      (hchain : accepted ↔ Linkable previous n id) :
      BlockNodeStep previous n (n.handleSignedBlock c id accepted)
  | produce {n : BlockNode ν β} (id : β) : BlockNodeStep previous n (n.produce id)
  | acceptedBlock {n : BlockNode ν β} (id : β) : BlockNodeStep previous n (n.bcastBlock id).1
  | setCurrent {n : BlockNode ν β} (c : ν) (current : Bool) :
      BlockNodeStep previous n (n.setCurrent c current)

/-- Blocks come from `c` one after the other, with other events in between.  Each of them stands
with whether the chain takes it. -/
inductive Gets (previous : β → Option β) (c : ν) :
    BlockNode ν β → List (β × Bool) → BlockNode ν β → Prop
  | nil (n : BlockNode ν β) : Gets previous c n [] n
  | other {n n' n'' : BlockNode ν β} {l : List (β × Bool)} (h : BlockNodeStep previous n n')
      (hrest : Gets previous c n' l n'') : Gets previous c n l n''
  | block {n n' : BlockNode ν β} {l : List (β × Bool)} (id : β) (accepted : Bool)
      (hchain : accepted ↔ Linkable previous n id)
      (hrest : Gets previous c (n.handleSignedBlock c id accepted) l n') :
      Gets previous c n ((id, accepted) :: l) n'

section Peer

variable {previous : β → Option β} {c : ν} {n n' : BlockNode ν β} {l : List (β × Bool)} {id : β}

omit [DecidableEq ν] in
theorem mem_known_handleSignedBlock (c : ν) (id' : β) (accepted : Bool) (h : id ∈ n.known) :
    id ∈ (n.handleSignedBlock c id' accepted).known := by
  unfold BlockNode.handleSignedBlock
  split
  · exact h
  · dsimp only
    split
    · exact List.mem_append_left _ h
    · exact h

omit [DecidableEq ν] in
theorem mem_known_handleSignedBlock_self (c : ν) (id : β) :
    id ∈ (n.handleSignedBlock c id true).known := by
  unfold BlockNode.handleSignedBlock
  split
  · next hknown => exact hknown
  · exact List.mem_append_right _ (List.mem_singleton_self id)

theorem BlockNodeStep.mem_known (h : BlockNodeStep previous n n') (hid : id ∈ n.known) :
    id ∈ n'.known := by
  cases h with
  | signedBlock c id' accepted hchain => exact mem_known_handleSignedBlock c id' accepted hid
  | produce id' => exact List.mem_append_left _ hid
  | acceptedBlock id' => exact hid
  | setCurrent c current => exact hid

theorem Gets.mem_known (h : Gets previous c n l n') (hid : id ∈ n.known) : id ∈ n'.known := by
  induction h with
  | nil n => exact hid
  | other h _ ih => exact ih (h.mem_known hid)
  | block id' accepted _ _ ih => exact ih (mem_known_handleSignedBlock c id' accepted hid)

/-- Blocks that follow each other, the first one after a block that the node has. -/
theorem Gets.accepted (h : Gets previous c n l n') {first : β} (hfirst : first ∈ n.known)
    (hids : List.IsChain (fun id id' => ∀ p, previous id' = some p → p = id)
      (first :: l.map Prod.fst)) : ∀ r ∈ l, r.2 = true ∧ r.1 ∈ n'.known := by
  induction h generalizing first with
  | nil n => exact fun _ hr => by cases hr
  | other h _ ih => exact ih (h.mem_known hfirst) hids
  | @block n n' l id accepted hchain hrest ih =>
      obtain ⟨hprevious, hids⟩ := List.isChain_cons_cons.mp hids
      have hlinkable : Linkable previous n id := fun p hp => hprevious p hp ▸ hfirst
      obtain rfl : accepted = true := hchain.mpr hlinkable
      have hid := mem_known_handleSignedBlock_self (n := n) c id
      intro r hr
      obtain rfl | hr := List.mem_cons.mp hr
      · exact ⟨rfl, hrest.mem_known hid⟩
      · exact ih hid hids r hr

/-- A peer that has the last irreversible block of the sender takes each of the blocks that the
sender sends, and has its head then, whatever else happens meanwhile. -/
theorem branch_catches_up {v : ForkView β} {nullId libId headId : β} {num : β → ℕ}
    {bs : List (BranchBlock β)} {turns : ℕ} (hv : v.Sound nullId num)
    (hnum : v.forkDbHeadBlockNum ≠ 0) (hends : v.ends nullId = some (libId, headId))
    (hturns : num headId < turns) (syncing : Bool) (hbranch : v.Branch libId headId bs)
    (hprevious : ∀ {id b}, v.fetchBlockById id = some b →
      ∀ p, previous b.id = some p → p = b.previous)
    (hlib : libId ∈ n.known) (h : Gets previous c n l n')
    (hsent : l.map Prod.fst = sentIds (v.blkSendBranch nullId turns syncing).2) :
    (∀ r ∈ l, r.2 = true) ∧ headId ∈ n'.known := by
  rw [hbranch.sent hv hnum hends hturns syncing, sentIds_map_block] at hsent
  obtain ⟨hids, hlast⟩ := hbranch.isChain hprevious
  have haccepted := h.accepted hlib (hsent ▸ hids)
  refine ⟨fun r hr => (haccepted r hr).1, ?_⟩
  obtain rfl | hhead := List.mem_cons.mp (List.mem_of_getLast? hlast)
  · exact h.mem_known hlib
  · rw [← hsent] at hhead
    obtain ⟨r, hr, rfl⟩ := List.mem_map.mp hhead
    exact (haccepted r hr).2

theorem branch_catches_up_twoBlocks : ∃ n' : BlockNode Unit ℕ,
    Gets (fun id => some (id - 1)) () { current := fun _ => true, known := [3], signalled := [3] }
      [(4, true), (5, true)] n' ∧ 9 ∈ n'.known ∧ 5 ∈ n'.known := by
  have hbranch : ForkView.twoBlocks.Branch 3 5 ([] ++ [⟨4, 3⟩] ++ [⟨5, 4⟩]) :=
    .block (b := ⟨5, 4⟩) (.block (b := ⟨4, 3⟩) .lib rfl (by decide)) rfl (by decide)
  have h : Gets (fun id => some (id - 1)) ()
      ({ current := fun _ => true, known := [3], signalled := [3] } : BlockNode Unit ℕ)
      [(4, true), (5, true)] _ :=
    .block 4 true ⟨fun _ p hp => Option.some.inj hp ▸ by decide, fun _ => rfl⟩
      (.other (.produce 9)
        (.block 5 true ⟨fun _ p hp => Option.some.inj hp ▸ by decide, fun _ => rfl⟩ (.nil _)))
  refine ⟨_, h, by decide, ?_⟩
  refine (branch_catches_up ForkView.sound_twoBlocks (by decide) rfl
    (show id 5 < 6 by decide) true hbranch (fun {id b} hb p hp => ?_) (by decide) h rfl).2
  simp only [ForkView.twoBlocks, Option.ite_none_left_eq_some, Option.some.injEq] at hb hp
  rw [← hp, ← hb.2]

end Peer

end Xidata.Net
