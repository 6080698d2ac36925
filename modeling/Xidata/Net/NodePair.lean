import Xidata.Net.Handlers

/-!
Two nodes that dial each other.  Each has an end of both links and decides, when it gets
the first handshake on one of them, whether this is a duplicate of the other.  Messages
between the nodes are delivered in any order that keeps those on one link in one
direction.
-/

namespace Xidata.Net

inductive Side
  | a | b
  deriving DecidableEq

def Side.other : Side → Side
  | .a => .b
  | .b => .a

@[simp] theorem Side.other_other (p : Side) : p.other.other = p := by cases p <;> rfl

@[simp] theorem Side.other_ne (p : Side) : p.other ≠ p := by cases p <;> decide

theorem Side.eq_other_of_ne {p q : Side} (h : q ≠ p) : q = p.other := by
  cases p <;> cases q <;> first | rfl | exact absurd rfl h

/-- The connection object of `party` for the link that `link` has dialed. -/
structure End where
  party : Side
  link : Side
  deriving DecidableEq

namespace End

def dialer (l : Side) : End := ⟨l, l⟩

def acceptor (l : Side) : End := ⟨l.other, l⟩

/-- The other end of the link. -/
def peer (e : End) : End := ⟨e.party.other, e.link⟩

/-- The end of the other link at the same node. -/
def sibling (e : End) : End := ⟨e.party, e.link.other⟩

@[simp] theorem peer_dialer (l : Side) : (dialer l).peer = acceptor l := rfl

@[simp] theorem peer_acceptor (l : Side) : (acceptor l).peer = dialer l := by
  rw [peer, acceptor, dialer, Side.other_other]

@[simp] theorem sibling_dialer (l : Side) : (dialer l).sibling = acceptor l.other := by
  rw [sibling, dialer, acceptor, Side.other_other]

@[simp] theorem sibling_acceptor (l : Side) : (acceptor l).sibling = dialer l.other := rfl

theorem acceptor_ne_dialer (l m : Side) : acceptor l ≠ dialer m := by
  cases l <;> cases m <;> decide

theorem eq_dialer_or_acceptor (e : End) : e = dialer e.link ∨ e = acceptor e.link := by
  obtain ⟨p, l⟩ := e
  cases p <;> cases l <;> decide

end End

/-- The names and the clocks of the nodes.  The address in a handshake ends with a part of
the node id, so that it is no name under which a node can be dialed. -/
structure Parties where
  address : Side → String
  endpoint : Side → String
  nodeId : Side → Sha256
  time : End → ℤ
  address_ne : ∀ p, address p ≠ ""
  address_ne_client : ∀ p, address p ≠ "connecting client"
  address_ne_endpoint : ∀ p, address p ≠ endpoint p.other

namespace Parties

variable (P : Parties)

/-- The handshake of generation 1 that is sent from an end. -/
def hello (e : End) : HandshakeMessage where
  time := P.time e
  p2pAddress := P.address e.party
  nodeId := P.nodeId e.party
  generation := 1

/-- The sum of the times of the two handshakes of a link. -/
def sum (l : Side) : ℤ := P.time (.dialer l) + P.time (.acceptor l)

end Parties

/-- `told` are the ends that have told the other one to go away as a duplicate, `processed`
those that have processed the first handshake. -/
structure NodePair where
  conn : End → Connection := fun _ => {}
  wire : End → List NetMessage := fun _ => []
  dialed : List Side := []
  processed : List End := []
  told : List End := []

inductive LinkEvent
  | dial (l : Side)
  /-- The next message to this end is processed. -/
  | deliver (e : End)
  /-- This end is closed after it has sent a message to go away, or because the other end
  is closed; what has not been read is lost. -/
  | hangUp (e : End)

/-- The link on which the event happens. -/
def LinkEvent.link : LinkEvent → Side
  | .dial l => l
  | .deliver e | .hangUp e => e.link

namespace NodePair

variable (P : Parties)

def setConn (s : NodePair) (e : End) (c : Connection) : NodePair :=
  { s with conn := Function.update s.conn e c }

def setWire (s : NodePair) (e : End) (ms : List NetMessage) : NodePair :=
  { s with wire := Function.update s.wire e ms }

def send (s : NodePair) (e : End) (m : NetMessage) : NodePair := s.setWire e (s.wire e ++ [m])

/-- The connection of a dialer that has sent its handshake. -/
def dialing (l : Side) : Connection :=
  { Connection.ofEndpoint (P.endpoint l) with
    socket := { isOpen := true }
    connecting := true
    lastHandshakeSent := P.hello (.dialer l)
    sentHandshakeCount := 1 }

def dial (s : NodePair) (l : Side) : NodePair :=
  let s := (s.setConn (.dialer l) (dialing P l)).setConn (.acceptor l) Connection.ofSocket
  { s.send (.acceptor l) (.handshake (P.hello (.dialer l))) with dialed := s.dialed ++ [l] }

/-- The other connection of the node is to the same peer and was made earlier. -/
def verdict (s : NodePair) (e : End) (msg : HandshakeMessage) : Bool :=
  (s.conn e).checksDuplicates && (s.conn e).duplicateOf (s.conn e.sibling) msg

/-- The handler of a handshake of generation 1 that passes every other check. -/
def receive (s : NodePair) (e : End) (msg : HandshakeMessage) : NodePair :=
  let c := { s.conn e with connecting := false }
  let s := { s with processed := s.processed ++ [e] }
  if s.verdict e msg then
    let s := s.send e.peer (.goAway { reason := .duplicate, nodeId := P.nodeId e.party })
    { s.setConn e { c with noRetry := .duplicate } with told := s.told ++ [e] }
  else if c.sentHandshakeCount = 0 then
    (s.send e.peer (.handshake (P.hello e))).setConn e { c with
      lastHandshakeSent := P.hello e
      sentHandshakeCount := 1
      lastHandshakeRecv := msg }
  else s.setConn e { c with lastHandshakeRecv := msg }

/-- `handle_message` of a message to go away. -/
def goneAway (c : Connection) (msg : GoAwayMessage) : Connection :=
  let c := { c with noRetry := msg.reason }
  let c := if msg.reason = .duplicate then { c with nodeId := msg.nodeId } else c
  c.flushQueues.close

/-- The message is taken off the wire and handled. -/
def deliver (s : NodePair) (e : End) (m : NetMessage) (rest : List NetMessage) : NodePair :=
  let s := s.setWire e rest
  match m with
  | .handshake msg => s.receive P e msg
  | .goAway msg => s.setConn e (goneAway (s.conn e) msg)
  | _ => s

def step (s : NodePair) : LinkEvent → Except Unit NodePair
  | .dial l => if l ∈ s.dialed then .error () else .ok (s.dial P l)
  | .deliver e =>
      if (s.conn e).socket.isOpen then
        match s.wire e with
        | [] => .error ()
        | m :: rest => .ok (s.deliver P e m rest)
      else .error ()
  | .hangUp e =>
      if e.link ∈ s.dialed ∧ (e ∈ s.told ∨ (s.conn e.peer).socket.isOpen = false) then
        .ok ((s.setConn e (s.conn e).close).setWire e [])
      else .error ()

/-! ### The verdict -/

variable {P} {s : NodePair} {l : Side} {c check : Connection}

/-- The verdict of an end is that of the handler of a node that has these two connections
only. -/
theorem duplicate_of_two {n : Node} {c d : ConnectionId} (hne : d ≠ c)
    (hset : n.connections = [c, d] ∨ n.connections = [d, c]) (msg : HandshakeMessage) :
    n.duplicate c msg = ((n.conn c).checksDuplicates && (n.conn c).duplicateOf (n.conn d) msg) := by
  unfold Node.duplicate
  obtain hset | hset := hset <;> simp [hset, hne]

/-- The connection is compared by its two handshakes if it goes by the name of the other
node. -/
def Named (P : Parties) (e : End) (c : Connection) : Prop :=
  c.connected = true → c.peerName = P.address e.party.other →
    c.lastHandshakeSent.time + c.lastHandshakeRecv.time = P.sum e.link

theorem Named.of_closed {e : End} (h : c.socket.isOpen = false) : Named P e c := by
  intro hconnected
  rw [Connection.connected, h] at hconnected
  cases hconnected

theorem Named.of_connecting {e : End} (h : c.connecting = true) : Named P e c := by
  intro hconnected
  rw [Connection.connected, h, Bool.not_true, Bool.and_false] at hconnected
  cases hconnected

theorem duplicateOf_iff {msg : HandshakeMessage} :
    c.duplicateOf check msg = true ↔ check.connected = true ∧ check.peerName = msg.p2pAddress ∧
      check.lastHandshakeSent.time + check.lastHandshakeRecv.time <
        msg.time + c.lastHandshakeSent.time := by
  simp [Connection.duplicateOf, and_assoc]

/-- The connection of an acceptor that has replied. -/
def replying (P : Parties) (l : Side) : Connection :=
  { Connection.ofSocket with
    connecting := false
    lastHandshakeSent := P.hello (.acceptor l)
    sentHandshakeCount := 1
    lastHandshakeRecv := P.hello (.dialer l) }

/-- The connection of a dialer that has got the reply. -/
def greeted (P : Parties) (l : Side) : Connection :=
  { dialing P l with connecting := false, lastHandshakeRecv := P.hello (.acceptor l) }

theorem replying_connected : (replying P l).connected = true := rfl

theorem replying_peerName : (replying P l).peerName = P.address l :=
  if_pos (P.address_ne l)

theorem replying_sum :
    (replying P l).lastHandshakeSent.time + (replying P l).lastHandshakeRecv.time = P.sum l :=
  add_comm _ _

theorem Named.replying : Named P (.acceptor l) (replying P l) := fun _ _ => replying_sum

theorem Named.greeted : Named P (.dialer l) (greeted P l) := fun _ _ => rfl

/-- A connection without a handshake does not go by the name of the other node. -/
theorem peerName_ne {p : Side} (hrecv : c.lastHandshakeRecv = {})
    (haddr : c.peerAddr = "" ∨ c.peerAddr = P.endpoint p.other) : c.peerName ≠ P.address p := by
  rw [Connection.peerName, hrecv, if_neg (not_not.mpr rfl)]
  split
  · rename_i hne
    obtain haddr | haddr := haddr
    · exact absurd haddr hne
    · rw [haddr]
      exact (P.address_ne_endpoint p).symm
  · exact (P.address_ne_client p).symm

theorem Named.told_dialer {reason : GoAwayReason} :
    Named P (.dialer l) { dialing P l with connecting := false, noRetry := reason } :=
  fun _ hname => absurd hname (peerName_ne rfl (.inr (by rw [Side.other_other]; rfl)))

theorem Named.told_acceptor {reason : GoAwayReason} :
    Named P (.acceptor l) { Connection.ofSocket with connecting := false, noRetry := reason } :=
  fun _ hname => absurd hname (peerName_ne rfl (.inl rfl))

/-! ### The phases of a link -/

/-- What the system is on one link. -/
structure LinkView where
  dialed : Bool
  dialer : Connection
  acceptor : Connection
  toDialer : List NetMessage
  toAcceptor : List NetMessage
  dialerDone : Bool
  acceptorDone : Bool
  dialerTold : Bool
  acceptorTold : Bool

def view (s : NodePair) (l : Side) : LinkView where
  dialed := l ∈ s.dialed
  dialer := s.conn (.dialer l)
  acceptor := s.conn (.acceptor l)
  toDialer := s.wire (.dialer l)
  toAcceptor := s.wire (.acceptor l)
  dialerDone := .dialer l ∈ s.processed
  acceptorDone := .acceptor l ∈ s.processed
  dialerTold := .dialer l ∈ s.told
  acceptorTold := .acceptor l ∈ s.told

/-- No handshake is processed any more once an end has been told to go away. -/
structure Ended (P : Parties) (l : Side) (v : LinkView) : Prop where
  dialed : v.dialed = true
  told : v.dialerTold = true ∨ v.acceptorTold = true
  toDialer : ∀ msg, .handshake msg ∉ v.toDialer
  toAcceptor : ∀ msg, .handshake msg ∉ v.toAcceptor
  dialer : Named P (.dialer l) v.dialer
  acceptor : Named P (.acceptor l) v.acceptor
  unanswered : v.acceptorTold = true → v.dialerDone = false

/-- The handshakes of a link come one after the other. -/
inductive Phase (P : Parties) (l : Side) : LinkView → Prop
  | undialed {c c' : Connection} (hc : c.socket.isOpen = false) (hc' : c'.socket.isOpen = false) :
      Phase P l ⟨false, c, c', [], [], false, false, false, false⟩
  | opening : Phase P l ⟨true, dialing P l, Connection.ofSocket, [],
      [.handshake (P.hello (.dialer l))], false, false, false, false⟩
  | replied : Phase P l ⟨true, dialing P l, replying P l, [.handshake (P.hello (.acceptor l))], [],
      false, true, false, false⟩
  | settled : Phase P l ⟨true, greeted P l, replying P l, [], [], true, true, false, false⟩
  | ended {v : LinkView} (h : Ended P l v) : Phase P l v

theorem Phase.named {v : LinkView} (h : Phase P l v) :
    Named P (.dialer l) v.dialer ∧ Named P (.acceptor l) v.acceptor := by
  cases h with
  | undialed hc hc' => exact ⟨.of_closed hc, .of_closed hc'⟩
  | opening => exact ⟨.of_connecting rfl, .of_connecting rfl⟩
  | replied => exact ⟨.of_connecting rfl, .replying⟩
  | settled => exact ⟨.greeted, .replying⟩
  | ended h => exact ⟨h.dialer, h.acceptor⟩

/-- The dialer tells the other end to go away only on the link with the larger sum. -/
theorem dialer_verdict (hnamed : Named P (.acceptor l.other) check)
    (h : (dialing P l).duplicateOf check (P.hello (.acceptor l)) = true) :
    P.sum l.other < P.sum l := by
  obtain ⟨hconnected, hname, hlt⟩ := duplicateOf_iff.mp h
  have hother : P.address l.other = P.address l.other.other.other := by rw [Side.other_other]
  rw [hnamed hconnected (hname.trans hother)] at hlt
  exact hlt.trans_eq (add_comm _ _)

/-- It does so where its other connection has been answered. -/
theorem dialer_verdict_replying (h : P.sum l.other < P.sum l) :
    (dialing P l).duplicateOf (replying P l.other) (P.hello (.acceptor l)) = true := by
  refine duplicateOf_iff.mpr ⟨replying_connected, replying_peerName, ?_⟩
  rw [replying_sum]
  exact h.trans_eq (add_comm _ _)

theorem dialing_checksDuplicates : (dialing P l).checksDuplicates = true :=
  decide_eq_true (.inr rfl)

theorem duplicateOf_not_connected {msg : HandshakeMessage} (h : check.connected = false) :
    c.duplicateOf check msg = false := by
  rw [Connection.duplicateOf, h, Bool.false_and, Bool.false_and]

/-- The acceptor does so only when the first handshake alone is later than both of the
other link. -/
theorem acceptor_verdict (hnamed : Named P (.dialer l.other) check)
    (h : Connection.ofSocket.duplicateOf check (P.hello (.dialer l)) = true) : P.sum l.other < P.time (.dialer l) := by
  obtain ⟨hconnected, hname, hlt⟩ := duplicateOf_iff.mp h
  have hother : P.address l = P.address l.other.other := by rw [Side.other_other]
  rw [hnamed hconnected (hname.trans hother)] at hlt
  exact hlt.trans_eq (add_zero _)

/-! ### Steps -/

/-- The two systems are the same on link `l`. -/
structure Same (l : Side) (s s' : NodePair) : Prop where
  dialed : l ∈ s'.dialed ↔ l ∈ s.dialed
  conn : ∀ e, e.link = l → s'.conn e = s.conn e
  wire : ∀ e, e.link = l → s'.wire e = s.wire e
  processed : ∀ e, e.link = l → (e ∈ s'.processed ↔ e ∈ s.processed)
  told : ∀ e, e.link = l → (e ∈ s'.told ↔ e ∈ s.told)

theorem Same.view {s s' : NodePair} (h : Same l s s') : s'.view l = s.view l := by
  simp only [NodePair.view, LinkView.mk.injEq, decide_eq_decide]
  exact ⟨h.dialed, h.conn _ rfl, h.conn _ rfl, h.wire _ rfl, h.wire _ rfl, h.processed _ rfl,
    h.processed _ rfl, h.told _ rfl, h.told _ rfl⟩

theorem Same.refl (l : Side) (s : NodePair) : Same l s s :=
  ⟨Iff.rfl, fun _ _ => rfl, fun _ _ => rfl, fun _ _ => Iff.rfl, fun _ _ => Iff.rfl⟩

theorem Same.trans {s s' s'' : NodePair} (h : Same l s s') (h' : Same l s' s'') : Same l s s'' where
  dialed := h'.dialed.trans h.dialed
  conn e he := (h'.conn e he).trans (h.conn e he)
  wire e he := (h'.wire e he).trans (h.wire e he)
  processed e he := (h'.processed e he).trans (h.processed e he)
  told e he := (h'.told e he).trans (h.told e he)

theorem ne_of_link {e e' : End} (h : e.link ≠ l) (he' : e'.link = l) : e' ≠ e := fun heq => by
  rw [heq] at he'
  exact h he'

theorem same_setConn {e : End} (h : e.link ≠ l) (c : Connection) : Same l s (s.setConn e c) :=
  { Same.refl l s with conn := fun _ he' => Function.update_of_ne (ne_of_link h he') _ _ }

theorem same_setWire {e : End} (h : e.link ≠ l) (ms : List NetMessage) :
    Same l s (s.setWire e ms) :=
  { Same.refl l s with wire := fun _ he' => Function.update_of_ne (ne_of_link h he') _ _ }

theorem mem_append_of_link {e e' : End} (h : e.link ≠ l) (he' : e'.link = l) (es : List End) :
    e' ∈ es ++ [e] ↔ e' ∈ es := by
  rw [List.mem_append, List.mem_singleton, or_iff_left (ne_of_link h he')]

theorem same_processed {e : End} (h : e.link ≠ l) :
    Same l s { s with processed := s.processed ++ [e] } :=
  { Same.refl l s with processed := fun _ he' => mem_append_of_link h he' _ }

theorem same_told {e : End} (h : e.link ≠ l) : Same l s { s with told := s.told ++ [e] } :=
  { Same.refl l s with told := fun _ he' => mem_append_of_link h he' _ }

theorem same_receive {e : End} (h : e.link ≠ l) (msg : HandshakeMessage) :
    Same l s (s.receive P e msg) := by
  have hpeer : e.peer.link ≠ l := h
  unfold receive
  dsimp only
  split
  · exact (same_processed h).trans <| (same_setWire hpeer _).trans <| (same_setConn h _).trans <|
      same_told h
  · split
    · exact (same_processed h).trans <| (same_setWire hpeer _).trans <| same_setConn h _
    · exact (same_processed h).trans <| same_setConn h _

theorem same_deliver {e : End} (h : e.link ≠ l) (m : NetMessage) (rest : List NetMessage) :
    Same l s (s.deliver P e m rest) := by
  have hwire : Same l s (s.setWire e rest) := same_setWire h rest
  cases m with
  | handshake msg => exact hwire.trans (same_receive h msg)
  | goAway msg => exact hwire.trans (same_setConn h _)
  | _ => exact hwire

theorem same_dialed {m : Side} (h : m ≠ l) : Same l s { s with dialed := s.dialed ++ [m] } :=
  { Same.refl l s with dialed := by rw [List.mem_append, List.mem_singleton, or_iff_left h.symm] }

theorem same_dial {m : Side} (h : m ≠ l) : Same l s (s.dial P m) :=
  (same_setConn (e := .dialer m) h _).trans <| (same_setConn (e := .acceptor m) h _).trans <|
    (same_setWire (e := .acceptor m) h _).trans <| same_dialed h

theorem same_step {s' : NodePair} {e : LinkEvent} (h : e.link ≠ l) (hstep : s.step P e = .ok s') : Same l s s' := by
  cases e with
  | dial m =>
      rw [step] at hstep
      split at hstep
      · cases hstep
      · cases hstep
        exact same_dial h
  | deliver e =>
      rw [step] at hstep
      split at hstep
      · cases hwire : s.wire e with
        | nil =>
            rw [hwire] at hstep
            cases hstep
        | cons m rest =>
            rw [hwire] at hstep
            cases hstep
            exact same_deliver h m rest
      · cases hstep
  | hangUp e =>
      rw [step] at hstep
      split at hstep
      · cases hstep
        exact (same_setConn h _).trans (same_setWire h [])
      · cases hstep

/-! ### The phases along a run -/

theorem dialer_ne_acceptor (l : Side) : End.dialer l ≠ End.acceptor l :=
  (End.acceptor_ne_dialer l l).symm

theorem acceptor_ne (l : Side) : End.acceptor l ≠ End.dialer l := End.acceptor_ne_dialer l l

theorem phase_dial (h : Phase P l (s.view l)) (hl : l ∉ s.dialed) :
    Phase P l ((s.dial P l).view l) := by
  have hne := dialer_ne_acceptor l
  generalize hv : s.view l = v at h
  have hdialed : v.dialed = false := by
    rw [← hv]
    exact decide_eq_false hl
  cases h with
  | undialed hc hc' =>
      simp only [view, LinkView.mk.injEq, decide_eq_false_iff_not] at hv
      obtain ⟨-, -, -, hwd, hwa, hpd, hpa, htd, hta⟩ := hv
      have heq : (s.dial P l).view l = ⟨true, dialing P l, Connection.ofSocket, [],
          [.handshake (P.hello (.dialer l))], false, false, false, false⟩ := by
        simp [view, dial, setConn, send, setWire, hne, hwd, hwa, hpd, hpa, htd, hta]
      rw [heq]
      exact .opening
  | ended h =>
      rw [h.dialed] at hdialed
      cases hdialed
  | opening => cases hdialed
  | replied => cases hdialed
  | settled => cases hdialed

/-- The first handshake of a link is processed. -/
theorem phase_opener (hv : s.view l = ⟨true, dialing P l, Connection.ofSocket, [],
      [.handshake (P.hello (.dialer l))], false, false, false, false⟩) :
    Phase P l ((s.deliver P (.acceptor l) (.handshake (P.hello (.dialer l))) []).view l) := by
  have hne := dialer_ne_acceptor l
  have hne' := acceptor_ne l
  simp only [view, LinkView.mk.injEq, decide_eq_false_iff_not, decide_eq_true_iff] at hv
  obtain ⟨hdialed, hd, ha, hwd, -, hpd, hpa, htd, hta⟩ := hv
  unfold deliver receive setWire
  dsimp only
  split
  · refine .ended ⟨?_, .inr ?_, fun msg => ?_, fun msg => ?_, ?_, ?_, fun _ => ?_⟩
    · simp [view, setConn, send, setWire, hdialed]
    · simp [view]
    · simp [view, setConn, send, setWire, hwd, hne]
    · simp [view, setConn, send, setWire, hne']
    · simp only [view, setConn, send, setWire, Function.update_of_ne hne, hd]
      exact .of_connecting rfl
    · simp only [view, setConn, Function.update_self, ha]
      exact .told_acceptor
    · simp [view, setConn, send, setWire, hne, hpd]
  · rw [if_pos (by rw [ha]; rfl)]
    have heq : (({ s.setWire (.acceptor l) [] with
        processed := s.processed ++ [End.acceptor l] }.send (End.acceptor l).peer
          (.handshake (P.hello (.acceptor l)))).setConn (.acceptor l) (replying P l)).view l =
        ⟨true, dialing P l, replying P l, [.handshake (P.hello (.acceptor l))], [], false, true,
          false, false⟩ := by
      simp [view, setConn, send, setWire, hne, hne', hdialed, hd, hwd, hpd, htd, hta]
    have hreply : Phase P l _ := .replied
    rw [← heq] at hreply
    rw [ha]
    exact hreply

/-- The reply is processed. -/
theorem phase_reply (hv : s.view l = ⟨true, dialing P l, replying P l,
      [.handshake (P.hello (.acceptor l))], [], false, true, false, false⟩) :
    Phase P l ((s.deliver P (.dialer l) (.handshake (P.hello (.acceptor l))) []).view l) := by
  have hne := dialer_ne_acceptor l
  have hne' := acceptor_ne l
  simp only [view, LinkView.mk.injEq, decide_eq_false_iff_not, decide_eq_true_iff] at hv
  obtain ⟨hdialed, hd, ha, -, hwa, hpd, hpa, htd, hta⟩ := hv
  unfold deliver receive setWire
  dsimp only
  split
  · refine .ended ⟨?_, .inl ?_, fun msg => ?_, fun msg => ?_, ?_, ?_, fun htold => ?_⟩
    · simp [view, setConn, send, setWire, hdialed]
    · simp [view]
    · simp [view, setConn, send, setWire, hne]
    · simp [view, setConn, send, setWire, hwa, hne']
    · simp only [view, setConn, Function.update_self, hd]
      exact .told_dialer
    · simp only [view, setConn, send, setWire, Function.update_of_ne hne', ha]
      exact .replying
    · simp [view, setConn, send, setWire, hne', hta] at htold
  · have hcount : ¬ (s.conn (.dialer l)).sentHandshakeCount = 0 := by
      rw [hd]
      exact (by decide : ¬ (1 : Int16) = 0)
    rw [if_neg hcount]
    have heq : ({ s.setWire (.dialer l) [] with
        processed := s.processed ++ [End.dialer l] }.setConn (.dialer l) (greeted P l)).view l =
        ⟨true, greeted P l, replying P l, [], [], true, true, false, false⟩ := by
      simp [view, setConn, setWire, hne', hdialed, ha, hwa, hpa, htd, hta]
    have hsettled : Phase P l _ := .settled
    rw [← heq] at hsettled
    rw [hd]
    exact hsettled

theorem goneAway_closed (c : Connection) (msg : GoAwayMessage) :
    (goneAway c msg).socket.isOpen = false := rfl

theorem Ended.setConn (h : Ended P l (s.view l)) {e : End} (hc : c.socket.isOpen = false) :
    Ended P l ((s.setConn e c).view l) := by
  refine { h with dialer := ?_, acceptor := ?_ }
  · show Named P _ (Function.update s.conn e c (.dialer l))
    by_cases he : End.dialer l = e
    · rw [he, Function.update_self]
      exact .of_closed hc
    · rw [Function.update_of_ne he]
      exact h.dialer
  · show Named P _ (Function.update s.conn e c (.acceptor l))
    by_cases he : End.acceptor l = e
    · rw [he, Function.update_self]
      exact .of_closed hc
    · rw [Function.update_of_ne he]
      exact h.acceptor

theorem Ended.setWire (h : Ended P l (s.view l)) {e : End} {ms : List NetMessage}
    (hms : ∀ m ∈ ms, m ∈ s.wire e) :
    Ended P l ((s.setWire e ms).view l) := by
  refine { h with toDialer := fun msg hmsg => ?_, toAcceptor := fun msg hmsg => ?_ }
  · refine h.toDialer msg ?_
    change NetMessage.handshake msg ∈ Function.update s.wire e ms (.dialer l) at hmsg
    by_cases he : End.dialer l = e
    · subst he
      rw [Function.update_self] at hmsg
      exact hms _ hmsg
    · rwa [Function.update_of_ne he] at hmsg
  · refine h.toAcceptor msg ?_
    change NetMessage.handshake msg ∈ Function.update s.wire e ms (.acceptor l) at hmsg
    by_cases he : End.acceptor l = e
    · subst he
      rw [Function.update_self] at hmsg
      exact hms _ hmsg
    · rwa [Function.update_of_ne he] at hmsg

theorem Ended.deliver (h : Ended P l (s.view l)) {e : End} (he : e.link = l) {m : NetMessage}
    {rest : List NetMessage} (hw : s.wire e = m :: rest) :
    Ended P l ((s.deliver P e m rest).view l) := by
  have hrest : Ended P l ((s.setWire e rest).view l) :=
    h.setWire fun m' hm' => hw ▸ List.mem_cons_of_mem m hm'
  have hno : ∀ msg, m ≠ .handshake msg := by
    rintro msg rfl
    have hmem : NetMessage.handshake msg ∈ s.wire e := hw ▸ List.mem_cons_self
    subst he
    obtain heq | heq := e.eq_dialer_or_acceptor
    · rw [heq] at hmem
      exact h.toDialer msg hmem
    · rw [heq] at hmem
      exact h.toAcceptor msg hmem
  cases m with
  | handshake msg => exact absurd rfl (hno msg)
  | goAway msg => exact hrest.setConn (goneAway_closed _ msg)
  | _ => exact hrest

theorem phase_deliver (h : Phase P l (s.view l)) {e : End} (he : e.link = l) {m : NetMessage}
    {rest : List NetMessage} (hw : s.wire e = m :: rest) :
    Phase P l ((s.deliver P e m rest).view l) := by
  generalize hv : s.view l = v at h
  have hwires : s.wire (.dialer l) = v.toDialer ∧ s.wire (.acceptor l) = v.toAcceptor := by
    rw [← hv]
    exact ⟨rfl, rfl⟩
  subst he
  cases h with
  | ended h => exact .ended (Ended.deliver (hv ▸ h) rfl hw)
  | undialed hc hc' =>
      obtain heq | heq := e.eq_dialer_or_acceptor
      · rw [heq, hwires.1] at hw
        cases hw
      · rw [heq, hwires.2] at hw
        cases hw
  | opening =>
      obtain heq | heq := e.eq_dialer_or_acceptor
      · rw [heq, hwires.1] at hw
        cases hw
      · rw [heq, hwires.2] at hw
        cases hw
        have hphase := phase_opener hv
        rwa [← heq] at hphase
  | replied =>
      obtain heq | heq := e.eq_dialer_or_acceptor
      · rw [heq, hwires.1] at hw
        cases hw
        have hphase := phase_reply hv
        rwa [← heq] at hphase
      · rw [heq, hwires.2] at hw
        cases hw
  | settled =>
      obtain heq | heq := e.eq_dialer_or_acceptor
      · rw [heq, hwires.1] at hw
        cases hw
      · rw [heq, hwires.2] at hw
        cases hw

theorem Phase.ended_of_told {v : LinkView} (h : Phase P l v)
    (htold : v.dialerTold = true ∨ v.acceptorTold = true) : Ended P l v := by
  cases h with
  | ended h => exact h
  | undialed hc hc' => exact htold.elim Bool.noConfusion Bool.noConfusion
  | opening => exact htold.elim Bool.noConfusion Bool.noConfusion
  | replied => exact htold.elim Bool.noConfusion Bool.noConfusion
  | settled => exact htold.elim Bool.noConfusion Bool.noConfusion

theorem Phase.open_of_untold {v : LinkView} (h : Phase P l v) (hdialed : v.dialed = true)
    (htold : ¬ (v.dialerTold = true ∨ v.acceptorTold = true)) :
    v.dialer.socket.isOpen = true ∧ v.acceptor.socket.isOpen = true := by
  cases h with
  | ended h => exact absurd h.told htold
  | undialed hc hc' => cases hdialed
  | opening => exact ⟨rfl, rfl⟩
  | replied => exact ⟨rfl, rfl⟩
  | settled => exact ⟨rfl, rfl⟩

/-- A link is hung up only after an end has been told to go away. -/
theorem ended_of_hangUp (h : Phase P l (s.view l)) {e : End} (he : e.link = l) (hl : l ∈ s.dialed)
    (hup : e ∈ s.told ∨ (s.conn e.peer).socket.isOpen = false) : Ended P l (s.view l) := by
  subst he
  apply h.ended_of_told
  by_contra huntold
  obtain ⟨hdialer, hacceptor⟩ := h.open_of_untold (decide_eq_true hl) huntold
  obtain heq | heq := e.eq_dialer_or_acceptor
  · obtain htold | hclosed := hup
    · rw [heq] at htold
      exact huntold (.inl (decide_eq_true htold))
    · rw [heq, End.peer_dialer] at hclosed
      exact absurd (hacceptor.symm.trans hclosed) Bool.noConfusion
  · obtain htold | hclosed := hup
    · rw [heq] at htold
      exact huntold (.inr (decide_eq_true htold))
    · rw [heq, End.peer_acceptor] at hclosed
      exact absurd (hdialer.symm.trans hclosed) Bool.noConfusion

theorem phase_step {s' : NodePair} {e : LinkEvent} (h : Phase P l (s.view l))
    (hstep : s.step P e = .ok s') : Phase P l (s'.view l) := by
  by_cases hlink : e.link = l
  · cases e with
    | dial m =>
        rw [step] at hstep
        split at hstep
        · cases hstep
        · rename_i hl
          cases hstep
          cases hlink
          exact phase_dial h hl
    | deliver e =>
        rw [step] at hstep
        split at hstep
        · cases hwire : s.wire e with
          | nil =>
              rw [hwire] at hstep
              cases hstep
          | cons m rest =>
              rw [hwire] at hstep
              cases hstep
              exact phase_deliver h hlink hwire
        · cases hstep
    | hangUp e =>
        rw [step] at hstep
        split at hstep
        · rename_i hup
          cases hstep
          have hended : Ended P l (s.view l) := ended_of_hangUp h hlink (hlink ▸ hup.1) hup.2
          exact .ended (Ended.setWire (hended.setConn rfl) fun m hm => by cases hm)
        · cases hstep
  · rw [(same_step hlink hstep).view]
    exact h

end NodePair

end Xidata.Net
