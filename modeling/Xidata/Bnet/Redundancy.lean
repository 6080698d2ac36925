import Mathlib.Data.List.FinRange
import Xidata.Bnet.Session

/-!
The sessions of two nodes with each other, at both ends.  A session that has read the hello of
the other node goes over the sessions of its own node and closes itself for each other one
with the same peer.  The way there is posted three times, and what it looks at in the end may
be a session that has been closed for the same reason.
-/

namespace Xidata.Bnet

inductive Side
  | left | right
  deriving DecidableEq

def Side.other : Side → Side
  | .left => .right
  | .right => .left

instance {P : Side → Prop} [DecidablePred P] : Decidable (∀ side, P side) :=
  decidable_of_iff (P .left ∧ P .right)
    ⟨fun h side => by cases side; exacts [h.1, h.2], fun h => ⟨h .left, h .right⟩⟩

/-- Two nodes of one chain, each with the key that it has generated. -/
structure Nodes where
  ext : Side → Externals
  chainId_other : ∀ side, (ext side.other).chainId = (ext side).chainId
  localPeerId_other : ∀ side, (ext side.other).localPeerId ≠ (ext side).localPeerId
  localPeerId_ne : ∀ side, (ext side).localPeerId ≠ []

/-- A session is put into the table of the plugin by a post of its own, and stays there until
it has been destroyed. -/
inductive Listing
  | posted | listed | erased
  deriving DecidableEq

/-- The sessions of a node with the other one, and what has been posted for them: `checks` by
`check_for_redundant_connection`, `walks` by `for_each_session`, and a call for a session
with each one in the table. -/
structure NodeSessions (n : ℕ) where
  session : Fin n → Session := fun _ => {}
  listing : Fin n → Listing := fun _ => .posted
  checks : List (Fin n) := []
  walks : List (Fin n) := []
  calls : List (Fin n × Fin n) := []

inductive NodeEvent (n : ℕ)
  | addSession (i : Fin n)
  /-- The chain has given its pending blocks for the hello. -/
  | pendingBlockIds (i : Fin n) (ids : List BlockId) (lib : UInt32)
  | hello (i : Fin n)
  | check (self : Fin n)
  | walk (self : Fin n)
  | call (self ses : Fin n)
  /-- The socket cannot be read any more, as the other end is closed. -/
  | failOnRead (i : Fin n)
  | destroy (i : Fin n)
  deriving DecidableEq

variable {n : ℕ}

namespace NodeSessions

def modify (node : NodeSessions n) (i : Fin n) (f : Session → Session) : NodeSessions n :=
  { node with session := Function.update node.session i (f (node.session i)) }

def addSession (node : NodeSessions n) (i : Fin n) : NodeSessions n :=
  { node with listing := Function.update node.listing i .listed }

def onSessionClose (node : NodeSessions n) (i : Fin n) : NodeSessions n :=
  { node with listing := Function.update node.listing i .erased }

def checkForRedundantConnection (node : NodeSessions n) (self : Fin n) : NodeSessions n :=
  { node with checks := node.checks ++ [self] }

def forEachSession (node : NodeSessions n) (self : Fin n) : NodeSessions n :=
  { node with checks := node.checks.erase self, walks := node.walks ++ [self] }

/-- The sessions in the table get a call each, the session that asks among them. -/
def postCalls (node : NodeSessions n) (self : Fin n) : NodeSessions n :=
  let listed := (List.finRange n).filter fun ses => node.listing ses = .listed
  { node with walks := node.walks.erase self, calls := node.calls ++ listed.map fun ses => (self, ses) }

def call (node : NodeSessions n) (self ses : Fin n) : NodeSessions n :=
  let node := { node with calls := node.calls.erase (self, ses) }
  if ses ≠ self ∧ (node.session ses).remotePeerId = (node.session self).remotePeerId then
    node.modify self Session.doGoodbye
  else node

def onHello (ext : Externals) (node : NodeSessions n) (self : Fin n) (hi : Hello)
    (extensions : List ℕ) : NodeSessions n :=
  let node := node.modify self fun s => s.onHello ext hi extensions
  if hi.chainId ≠ ext.chainId ∨ hi.peerId = ext.localPeerId ∨
      ext.followIrreversible ∧ hi.protocolVersion ≤ "1.0.0" then node
  else node.checkForRedundantConnection self

/-- Something that has been posted keeps the session alive. -/
def Posted (node : NodeSessions n) (i : Fin n) : Prop :=
  i ∈ node.checks ∨ i ∈ node.walks ∨ ∃ c ∈ node.calls, c.1 = i ∨ c.2 = i

instance (node : NodeSessions n) (i : Fin n) : Decidable (node.Posted i) :=
  inferInstanceAs (Decidable (_ ∨ _))

/-- The hello is the first message of the other end, and may have been received completely
before this end was closed. -/
def handle (ext : Externals) (node peer : NodeSessions n) :
    NodeEvent n → Except Unit (NodeSessions n)
  | .addSession i =>
    if node.listing i = .posted then .ok (node.addSession i) else .error ()
  | .pendingBlockIds i ids lib =>
    if (node.session i).closed ∨ (node.session i).sentRemoteHello then .error ()
    else .ok (node.modify i fun s => s.doHello ext ids lib)
  | .hello i =>
    if (node.session i).recvRemoteHello ∨ node.listing i = .erased then .error ()
    else
      match (peer.session i).sent.head? with
      | some (.hello hi extensions) => .ok (node.onHello ext i hi extensions)
      | _ => .error ()
  | .check self => if self ∈ node.checks then .ok (node.forEachSession self) else .error ()
  | .walk self => if self ∈ node.walks then .ok (node.postCalls self) else .error ()
  | .call self ses => if (self, ses) ∈ node.calls then .ok (node.call self ses) else .error ()
  | .failOnRead i =>
    if (node.session i).closed = false ∧ (peer.session i).closed then
      .ok (node.modify i Session.doGoodbye)
    else .error ()
  | .destroy i =>
    if (node.session i).closed ∧ node.listing i ≠ .erased ∧ ¬ node.Posted i then
      .ok (node.onSessionClose i)
    else .error ()

/-- What an end does with each event, and when the event can come. -/
inductive Handles (ext : Externals) (node peer : NodeSessions n) :
    NodeEvent n → NodeSessions n → Prop
  | addSession (i : Fin n) : Handles ext node peer (.addSession i) (node.addSession i)
  | pendingBlockIds (i : Fin n) (ids : List BlockId) (lib : UInt32) :
      Handles ext node peer (.pendingBlockIds i ids lib) (node.modify i fun s => s.doHello ext ids lib)
  | hello (i : Fin n) (hi : Hello) (extensions : List ℕ)
      (hsent : .hello hi extensions ∈ (peer.session i).sent) :
      Handles ext node peer (.hello i) (node.onHello ext i hi extensions)
  | check (self : Fin n) (hposted : self ∈ node.checks) :
      Handles ext node peer (.check self) (node.forEachSession self)
  | walk (self : Fin n) (hposted : self ∈ node.walks) :
      Handles ext node peer (.walk self) (node.postCalls self)
  | call (self ses : Fin n) (hposted : (self, ses) ∈ node.calls) :
      Handles ext node peer (.call self ses) (node.call self ses)
  | failOnRead (i : Fin n) (hpeer : (peer.session i).closed = true) :
      Handles ext node peer (.failOnRead i) (node.modify i Session.doGoodbye)
  | destroy (i : Fin n) : Handles ext node peer (.destroy i) (node.onSessionClose i)

theorem handles_of_handle {ext : Externals} {node peer node' : NodeSessions n} {e : NodeEvent n}
    (hok : node.handle ext peer e = .ok node') : Handles ext node peer e node' := by
  cases e with
  | addSession i =>
      obtain ⟨-, rfl⟩ := Rollback.ite_ok_eq_ok.mp hok
      exact .addSession i
  | pendingBlockIds i ids lib =>
      obtain ⟨-, hok⟩ := Rollback.ite_error_eq_ok.mp hok
      exact Except.ok.inj hok ▸ .pendingBlockIds i ids lib
  | hello i =>
      obtain ⟨-, hok⟩ := Rollback.ite_error_eq_ok.mp hok
      split at hok
      · next hi extensions hhead =>
          exact Except.ok.inj hok ▸ .hello i hi extensions (List.mem_of_head? hhead)
      · cases hok
  | check self =>
      obtain ⟨hposted, rfl⟩ := Rollback.ite_ok_eq_ok.mp hok
      exact .check self hposted
  | walk self =>
      obtain ⟨hposted, rfl⟩ := Rollback.ite_ok_eq_ok.mp hok
      exact .walk self hposted
  | call self ses =>
      obtain ⟨hposted, rfl⟩ := Rollback.ite_ok_eq_ok.mp hok
      exact .call self ses hposted
  | failOnRead i =>
      obtain ⟨hclosed, rfl⟩ := Rollback.ite_ok_eq_ok.mp hok
      exact .failOnRead i hclosed.2
  | destroy i =>
      obtain ⟨-, rfl⟩ := Rollback.ite_ok_eq_ok.mp hok
      exact .destroy i

theorem modify_session (node : NodeSessions n) (i j : Fin n) (f : Session → Session) :
    (node.modify i f).session j = if j = i then f (node.session i) else node.session j :=
  Function.update_apply _ _ _ _

@[simp] theorem checkForRedundantConnection_session (node : NodeSessions n) (self : Fin n) :
    (node.checkForRedundantConnection self).session = node.session := rfl

end NodeSessions

/-- Nothing but the checks closes a session here, and the end whose other end is closed. -/
def Nodes.step (nodes : Nodes) (s : Side → NodeSessions n) :
    Side × NodeEvent n → Except Unit (Side → NodeSessions n)
  | (side, e) =>
    ((s side).handle (nodes.ext side) (s side.other) e).map (Function.update s side)

/-- Both ends of the session are open. -/
def Survives (s : Side → NodeSessions n) (i : Fin n) : Prop :=
  ∀ side, ((s side).session i).closed = false

instance (s : Side → NodeSessions n) : DecidablePred (Survives s) := fun i =>
  inferInstanceAs (Decidable (∀ side, ((s side).session i).closed = false))

/-- When the session is called with another one, the hello of the other one has not been
read. -/
def Spared (i : Fin n) (s : Side → NodeSessions n) : Side × NodeEvent n → Prop
  | (side, .call self ses) =>
    self = i → ses ≠ i → ((s side).session ses).recvRemoteHello = false
  | _ => True

/-! ### What the nodes know of each other -/

namespace Session

variable {ext : Externals} {s : Session}

/-- The hello handler up to its end. -/
theorem onHello_accepted {hi : Hello} (hchain : hi.chainId = ext.chainId)
    (hpeer : hi.peerId ≠ ext.localPeerId)
    (hversion : ¬ (ext.followIrreversible ∧ hi.protocolVersion ≤ "1.0.0")) (extensions : List ℕ) :
    (s.onHello ext hi extensions).remotePeerId = hi.peerId ∧
      (s.onHello ext hi extensions).recvRemoteHello = true ∧
      (s.onHello ext hi extensions).closed = s.closed ∧
      (s.onHello ext hi extensions).sent = s.sent := by
  obtain ⟨hrefused, -⟩ | ⟨irreversibleOnly, heq⟩ := onHello_cases ext s hi extensions
  · rcases hrefused with h | h | h
    · exact absurd hchain h
    · exact absurd h hpeer
    · exact absurd h hversion
  · rw [heq]
    obtain ⟨_, _, hmarked⟩ := marked_onBlockNotice ext _ hi.pendingBlockIds
    rw [hmarked]
    exact ⟨rfl, rfl, rfl, rfl⟩

end Session

/-- A session has sent nothing but the hello of its node, and knows its peer from the hello of
the other one. -/
structure SessionOk (nodes : Nodes) (side : Side) (s : Session) : Prop where
  sent : ∀ hi extensions, .hello hi extensions ∈ s.sent →
    hi.peerId = (nodes.ext side).localPeerId ∧ hi.chainId = (nodes.ext side).chainId ∧
      hi.protocolVersion = "1.0.1"
  remotePeerId : s.remotePeerId =
    if s.recvRemoteHello then (nodes.ext side.other).localPeerId else []

/-- A session asks for others once it has read the hello. -/
structure EndOk (nodes : Nodes) (side : Side) (node : NodeSessions n) : Prop where
  session : ∀ i, SessionOk nodes side (node.session i)
  checks : ∀ i ∈ node.checks, (node.session i).recvRemoteHello = true
  walks : ∀ i ∈ node.walks, (node.session i).recvRemoteHello = true
  calls : ∀ c ∈ node.calls, (node.session c.1).recvRemoteHello = true

section EndOk

variable {nodes : Nodes} {side : Side} {node peer node' : NodeSessions n} {e : NodeEvent n}

theorem EndOk.modify (hnode : EndOk nodes side node) {i : Fin n} {f : Session → Session}
    (hf : SessionOk nodes side (f (node.session i)))
    (hrecv : (node.session i).recvRemoteHello = true → (f (node.session i)).recvRemoteHello = true) :
    EndOk nodes side (node.modify i f) := by
  have hkept : ∀ j, (node.session j).recvRemoteHello = true →
      ((node.modify i f).session j).recvRemoteHello = true := by
    intro j hj
    rw [NodeSessions.modify_session]
    split
    · next heq => exact hrecv (heq ▸ hj)
    · exact hj
  refine ⟨fun j => ?_, fun j hj => hkept j (hnode.checks j hj), fun j hj => hkept j (hnode.walks j hj),
    fun c hc => hkept c.1 (hnode.calls c hc)⟩
  rw [NodeSessions.modify_session]
  split
  · exact hf
  · exact hnode.session j

theorem EndOk.doGoodbye (hnode : EndOk nodes side node) (i : Fin n) :
    EndOk nodes side (node.modify i Session.doGoodbye) :=
  hnode.modify ⟨(hnode.session i).sent, (hnode.session i).remotePeerId⟩ id

theorem SessionOk.doHello {s : Session} (hs : SessionOk nodes side s) (ids : List BlockId)
    (lib : UInt32) : SessionOk nodes side (s.doHello (nodes.ext side) ids lib) where
  sent hi extensions hmem := by
    obtain hmem | hmem := List.mem_append.mp hmem
    · exact hs.sent hi extensions hmem
    · obtain ⟨rfl, -⟩ := BnetMessage.hello.inj (List.mem_singleton.mp hmem)
      exact ⟨rfl, rfl, rfl⟩
  remotePeerId := hs.remotePeerId

/-- The hello of the other node is accepted. -/
theorem SessionOk.accepted {peer : Session} (hpeer : SessionOk nodes side.other peer) {hi : Hello}
    {extensions : List ℕ} (hsent : .hello hi extensions ∈ peer.sent) :
    hi.peerId = (nodes.ext side.other).localPeerId ∧ hi.chainId = (nodes.ext side).chainId ∧
      hi.peerId ≠ (nodes.ext side).localPeerId ∧
      ¬ ((nodes.ext side).followIrreversible ∧ hi.protocolVersion ≤ "1.0.0") := by
  obtain ⟨hid, hchain, hversion⟩ := hpeer.sent hi extensions hsent
  refine ⟨hid, hchain.trans (nodes.chainId_other side), ?_, fun hold => ?_⟩
  · rw [hid]
    exact nodes.localPeerId_other side
  · rw [hversion] at hold
    exact absurd hold.2 (by decide)

theorem onHello_eq {i : Fin n} (hpeer : SessionOk nodes side.other (peer.session i)) {hi : Hello}
    {extensions : List ℕ} (hsent : .hello hi extensions ∈ (peer.session i).sent) :
    node.onHello (nodes.ext side) i hi extensions =
      (node.modify i fun s => s.onHello (nodes.ext side) hi extensions).checkForRedundantConnection
        i := by
  obtain ⟨-, hchain, hid, hversion⟩ := hpeer.accepted hsent
  unfold NodeSessions.onHello
  rw [if_neg]
  rintro (h | h | h)
  · exact h hchain
  · exact hid h
  · exact hversion h

theorem EndOk.onHello (hnode : EndOk nodes side node) {i : Fin n}
    (hpeer : SessionOk nodes side.other (peer.session i)) {hi : Hello} {extensions : List ℕ}
    (hsent : .hello hi extensions ∈ (peer.session i).sent) :
    EndOk nodes side (node.onHello (nodes.ext side) i hi extensions) := by
  obtain ⟨hlocal, hchain, hid, hversion⟩ := hpeer.accepted hsent
  obtain ⟨hremote, hrecv, -, hsame⟩ :=
    Session.onHello_accepted (s := node.session i) hchain hid hversion extensions
  rw [onHello_eq hpeer hsent]
  have hmodified : EndOk nodes side
      (node.modify i fun s => s.onHello (nodes.ext side) hi extensions) := by
    refine hnode.modify ⟨?_, ?_⟩ fun _ => hrecv
    · rw [hsame]
      exact (hnode.session i).sent
    · rw [hremote, hrecv, if_pos rfl, hlocal]
  refine ⟨hmodified.session, fun j hj => ?_, hmodified.walks, hmodified.calls⟩
  obtain hj | hj := List.mem_append.mp hj
  · exact hmodified.checks j hj
  · rw [List.mem_singleton.mp hj]
    rw [NodeSessions.checkForRedundantConnection_session, NodeSessions.modify_session, if_pos rfl]
    exact hrecv

theorem EndOk.call (hnode : EndOk nodes side node) (self ses : Fin n) :
    EndOk nodes side (node.call self ses) := by
  have hcalled : EndOk nodes side { node with calls := node.calls.erase (self, ses) } :=
    ⟨hnode.session, hnode.checks, hnode.walks, fun c hc => hnode.calls c (List.mem_of_mem_erase hc)⟩
  unfold NodeSessions.call
  dsimp only
  split
  · exact hcalled.doGoodbye self
  · exact hcalled

theorem EndOk.handles (hnode : EndOk nodes side node) (hpeer : EndOk nodes side.other peer)
    (h : NodeSessions.Handles (nodes.ext side) node peer e node') : EndOk nodes side node' := by
  cases h with
  | addSession => exact ⟨hnode.session, hnode.checks, hnode.walks, hnode.calls⟩
  | pendingBlockIds i ids lib => exact hnode.modify ((hnode.session i).doHello ids lib) id
  | hello i hi extensions hsent => exact hnode.onHello (hpeer.session i) hsent
  | check self hposted =>
      refine ⟨hnode.session, fun i hi => hnode.checks i (List.mem_of_mem_erase hi), fun i hi => ?_,
        hnode.calls⟩
      obtain hi | hi := List.mem_append.mp hi
      · exact hnode.walks i hi
      · exact List.mem_singleton.mp hi ▸ hnode.checks self hposted
  | walk self hposted =>
      refine ⟨hnode.session, hnode.checks, fun i hi => hnode.walks i (List.mem_of_mem_erase hi),
        fun c hc => ?_⟩
      obtain hc | hc := List.mem_append.mp hc
      · exact hnode.calls c hc
      · obtain ⟨ses, -, rfl⟩ := List.mem_map.mp hc
        exact hnode.walks self hposted
  | call self ses hposted => exact hnode.call self ses
  | failOnRead i => exact hnode.doGoodbye i
  | destroy => exact ⟨hnode.session, hnode.checks, hnode.walks, hnode.calls⟩

/-- The events that close an end of a session. -/
inductive Closes (node : NodeSessions n) (i : Fin n) : NodeEvent n → Prop
  | call (ses : Fin n) (hses : ses ≠ i) (hrecv : (node.session ses).recvRemoteHello = true) :
      Closes node i (.call i ses)
  | failOnRead : Closes node i (.failOnRead i)

/-- A session that asks knows its peer, so it finds the same peer in exactly the sessions that
have read their hello. -/
theorem EndOk.redundant_iff (hnode : EndOk nodes side node) {self : Fin n}
    (hself : (node.session self).recvRemoteHello = true) (ses : Fin n) :
    (node.session ses).remotePeerId = (node.session self).remotePeerId ↔
      (node.session ses).recvRemoteHello = true := by
  rw [(hnode.session ses).remotePeerId, (hnode.session self).remotePeerId, if_pos hself]
  by_cases hses : (node.session ses).recvRemoteHello = true
  · rw [if_pos hses]
    exact iff_of_true rfl hses
  · rw [if_neg hses]
    exact iff_of_false (nodes.localPeerId_ne side.other).symm hses

theorem closed_modify (i j : Fin n) {f : Session → Session}
    (hf : (f (node.session j)).closed = (node.session j).closed) :
    ((node.modify j f).session i).closed = (node.session i).closed := by
  rw [NodeSessions.modify_session]
  split
  · next heq => rw [hf, heq]
  · rfl

theorem closed_doGoodbye_iff (i j : Fin n) :
    ((node.modify j Session.doGoodbye).session i).closed = true ↔
      (node.session i).closed = true ∨ i = j := by
  rw [NodeSessions.modify_session]
  split
  · next heq => exact iff_of_true rfl (.inr heq)
  · next hne => exact ⟨.inl, fun h => h.resolve_right hne⟩

theorem EndOk.closed_call_iff (hnode : EndOk nodes side node) {self ses : Fin n}
    (hposted : (self, ses) ∈ node.calls) (i : Fin n) :
    ((node.call self ses).session i).closed = true ↔
      (node.session i).closed = true ∨ Closes node i (.call self ses) := by
  have hcall := hnode.redundant_iff (hnode.calls _ hposted) ses
  unfold NodeSessions.call
  dsimp only
  split
  · next hredundant =>
      have hrecv := hcall.mp hredundant.2
      rw [closed_doGoodbye_iff]
      refine or_congr_right ⟨?_, ?_⟩
      · rintro rfl
        exact .call ses hredundant.1 hrecv
      · rintro ⟨⟩
        rfl
  · next hnot =>
      refine ⟨.inl, fun h => h.resolve_right ?_⟩
      rintro ⟨_, hses, hrecv⟩
      exact hnot ⟨hses, hcall.mpr hrecv⟩

theorem EndOk.closed_iff (hnode : EndOk nodes side node) (hpeer : EndOk nodes side.other peer)
    (h : NodeSessions.Handles (nodes.ext side) node peer e node') (i : Fin n) :
    (node'.session i).closed = true ↔ (node.session i).closed = true ∨ Closes node i e := by
  cases h with
  | addSession => exact ⟨.inl, fun h => h.resolve_right nofun⟩
  | pendingBlockIds j ids lib =>
      rw [closed_modify i j rfl]
      exact ⟨.inl, fun h => h.resolve_right nofun⟩
  | hello j hi extensions hsent =>
      obtain ⟨-, hchain, hid, hversion⟩ := (hpeer.session j).accepted hsent
      obtain ⟨-, -, hclosed, -⟩ :=
        Session.onHello_accepted (s := node.session j) hchain hid hversion extensions
      rw [onHello_eq (hpeer.session j) hsent]
      have hsame := closed_modify (f := fun s => s.onHello (nodes.ext side) hi extensions) i j hclosed
      rw [NodeSessions.checkForRedundantConnection_session, hsame]
      exact ⟨.inl, fun h => h.resolve_right nofun⟩
  | check => exact ⟨.inl, fun h => h.resolve_right nofun⟩
  | walk => exact ⟨.inl, fun h => h.resolve_right nofun⟩
  | call self ses hposted => exact hnode.closed_call_iff hposted i
  | failOnRead j =>
      rw [closed_doGoodbye_iff]
      refine or_congr_right ⟨?_, ?_⟩
      · rintro rfl
        exact .failOnRead
      · rintro ⟨⟩
        rfl
  | destroy => exact ⟨.inl, fun h => h.resolve_right nofun⟩

end EndOk

/-! ### Runs -/

section Runs

variable {nodes : Nodes} {s s' : Side → NodeSessions n}

theorem handles_of_step {side : Side} {e : NodeEvent n} (hok : nodes.step s (side, e) = .ok s') :
    ∃ node', NodeSessions.Handles (nodes.ext side) (s side) (s side.other) e node' ∧
      s' = Function.update s side node' := by
  unfold Nodes.step at hok
  dsimp only at hok
  cases hhandle : (s side).handle (nodes.ext side) (s side.other) e with
  | ok node' =>
      rw [hhandle] at hok
      exact ⟨node', NodeSessions.handles_of_handle hhandle, (Except.ok.inj hok).symm⟩
  | error u =>
      rw [hhandle] at hok
      cases hok

theorem endOk_init (nodes : Nodes) (side : Side) : EndOk nodes side ({} : NodeSessions n) where
  session _ := ⟨fun _ _ hmem => (nomatch hmem), rfl⟩
  checks _ hmem := nomatch hmem
  walks _ hmem := nomatch hmem
  calls _ hmem := nomatch hmem

theorem endOk_step (hs : ∀ side, EndOk nodes side (s side)) {e : Side × NodeEvent n}
    (hok : nodes.step s e = .ok s') : ∀ side, EndOk nodes side (s' side) := by
  obtain ⟨place, e⟩ := e
  obtain ⟨node', hhandles, rfl⟩ := handles_of_step hok
  intro side
  rw [Function.update_apply]
  split
  · next heq =>
      rw [heq]
      exact (hs place).handles (hs _) hhandles
  · exact hs side

/-- A session survives a step exactly if no end of it finds that it is redundant. -/
theorem survives_step_iff (hs : ∀ side, EndOk nodes side (s side)) {e : Side × NodeEvent n}
    (hok : nodes.step s e = .ok s') (i : Fin n) :
    Survives s' i ↔ Survives s i ∧ Spared i s e := by
  obtain ⟨place, e⟩ := e
  obtain ⟨node', hhandles, rfl⟩ := handles_of_step hok
  have hclosed := (hs place).closed_iff (hs place.other) hhandles i
  constructor
  · intro hsurvives
    have hopen : ¬ (((s place).session i).closed = true ∨ Closes (s place) i e) := by
      rw [← hclosed]
      have hplace := hsurvives place
      rw [Function.update_self] at hplace
      exact Bool.eq_false_iff.mp hplace
    refine ⟨fun side => ?_, ?_⟩
    · by_cases hside : side = place
      · rw [hside]
        exact Bool.eq_false_iff.mpr fun h => hopen (.inl h)
      · have hother := hsurvives side
        rwa [Function.update_of_ne hside] at hother
    · cases e with
      | call self ses =>
          rintro rfl hses
          exact Bool.eq_false_iff.mpr fun hrecv => hopen (.inr (.call ses hses hrecv))
      | _ => trivial
  · rintro ⟨hsurvives, hspared⟩ side
    by_cases hside : side = place
    · rw [hside, Function.update_self, Bool.eq_false_iff, Ne, hclosed]
      rintro (h | h)
      · rw [hsurvives place] at h
        cases h
      · cases h with
        | call ses hses hrecv =>
            rw [hspared rfl hses] at hrecv
            cases hrecv
        | failOnRead =>
            cases hhandles with
            | failOnRead _ hpeer =>
                rw [hsurvives place.other] at hpeer
                cases hpeer
    · rw [Function.update_of_ne hside]
      exact hsurvives side

/-- A session survives the hellos and the checks exactly if it is called with each other one,
at both ends, before the hello of the other one has been read. -/
theorem survives_iff (nodes : Nodes) (n : ℕ) (es : List (Side × NodeEvent n)) :
    (∃ i, Survives (Rollback.run nodes.step (fun _ => {}) es) i) ↔
      ∃ i, Rollback.Along nodes.step (fun s e _ => Spared i s e) (fun _ => {}) es := by
  refine exists_congr fun i => ?_
  have hrun : Survives (Rollback.run nodes.step (fun _ => {}) es) i ↔
      Survives (n := n) (fun _ => {}) i ∧
        Rollback.Along nodes.step (fun s e _ => Spared i s e) (fun _ => {}) es :=
    Rollback.run_iff_along (Q := fun s => Survives s i) (fun _ _ _ hs hok => endOk_step hs hok)
      (fun _ _ _ hs hok => survives_step_iff hs hok i) (endOk_init nodes)
  rw [hrun]
  exact and_iff_right fun _ => rfl

end Runs

/-- Two nodes with the keys 1 and 2. -/
def twoNodes : Nodes where
  ext
    | .left => { Session.numberedChain with localPeerId := [1] }
    | .right => { Session.numberedChain with localPeerId := [2] }
  chainId_other side := by cases side <;> rfl
  localPeerId_other side := by cases side <;> decide
  localPeerId_ne side := by cases side <;> decide

/-- The left node reads the hellos of two sessions before the first of them is called with the
other one. -/
def bothChecked : List (Side × NodeEvent 2) :=
  [(.left, .addSession 0), (.left, .addSession 1), (.right, .pendingBlockIds 0 [] 0),
    (.right, .pendingBlockIds 1 [] 0), (.left, .hello 0), (.left, .hello 1), (.left, .check 0),
    (.left, .check 1), (.left, .walk 0), (.left, .walk 1), (.left, .call 0 0),
    (.left, .call 1 0), (.left, .call 0 1), (.left, .call 1 1)]

/-- Each of the two sessions finds the other one and closes itself. -/
theorem none_survives : ¬ ∀ (nodes : Nodes) (n : ℕ) (es : List (Side × NodeEvent n)), 0 < n →
    ∃ i, Survives (Rollback.run nodes.step (fun _ => {}) es) i := by
  intro h
  have hnone : ¬ ∃ i, Survives (Rollback.run twoNodes.step (fun _ => {}) bothChecked) i := by
    decide +kernel
  exact hnone (h twoNodes 2 bothChecked (by decide))

end Xidata.Bnet
