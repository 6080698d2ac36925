import Mathlib.Algebra.Order.Group.Abs
import Mathlib.Algebra.Order.Group.Int
import Xidata.Net.Handlers
import Xidata.Net.SyncProgress

/-!
What the authentication of peers keeps out.  It decides, with the other checks, whether a
handshake of generation 1 reaches the sync manager.  Every other message is handled in
the same way whichever peers the node is configured to allow.
-/

namespace Xidata.Net

inductive NodeEvent
  | message (c : ConnectionId) (msg : NetMessage)
  /-- The node changes in some other way. -/
  | outside (w : Node)

/-- A message that was handled, with the node as it was before and the calls made. -/
structure Delivery where
  node : Node
  conn : ConnectionId
  msg : NetMessage
  calls : List Call

section Runs

variable (cfg : Config) (ext : Externals) (perform : ConnectionId → Call → Node → Node)

/-- The messages handled in a run. -/
def deliveries (n : Node) : List NodeEvent → List Delivery
  | [] => []
  | .message c msg :: es =>
      ⟨n, c, msg, (n.handleMessage cfg ext perform c msg).2⟩ ::
        deliveries (n.handleMessage cfg ext perform c msg).1 es
  | .outside w :: es => deliveries w es

end Runs

variable {cfg : Config} {ext : Externals} {perform : ConnectionId → Call → Node → Node} {n : Node}

/-- What every message that is handled satisfies in every state satisfies every delivery. -/
theorem deliveries_induction {P : Delivery → Prop}
    (h : ∀ n c msg, P ⟨n, c, msg, (n.handleMessage cfg ext perform c msg).2⟩) (n : Node)
    (es : List NodeEvent) : ∀ d ∈ deliveries cfg ext perform n es, P d := by
  induction es generalizing n with
  | nil => exact fun d hd => (by cases hd)
  | cons e es ih =>
      cases e with
      | message c msg => exact List.forall_mem_cons.mpr ⟨h n c msg, ih _⟩
      | outside w => exact ih w

/-! ### Handshakes -/

/-- The checks of a handshake of generation 1 on connection `c`, in their order. -/
structure Admitted (cfg : Config) (ext : Externals) (n : Node) (c : ConnectionId)
    (msg : HandshakeMessage) : Prop where
  notSelf : msg.nodeId ≠ cfg.nodeId
  notDuplicate : n.duplicate c msg = false
  chainId : msg.chainId = cfg.chainId
  version : toProtocolVersion msg.networkVersion = netVersion ∨ cfg.networkVersionMatch = false
  authentic : authenticatePeer cfg ext n.clock msg = true
  notForked : n.onFork msg = false

/-- Whether a connection is a duplicate does not depend on whether it is being connected. -/
theorem duplicate_connecting (n : Node) (c : ConnectionId) (msg : HandshakeMessage) :
    (n.update c fun c => { c with connecting := false }).duplicate c msg = n.duplicate c msg := by
  unfold Node.duplicate
  rw [Node.update_conn_self, Node.update_connections]
  refine congrArg (fun p => (n.conn c).checksDuplicates && n.connections.any p)
    (funext fun check => ?_)
  by_cases hcheck : check = c
  · simp [hcheck]
  · rw [Node.update_conn_of_ne hcheck]
    rfl

theorem handleHandshake_calls (cfg : Config) (ext : Externals) (n : Node) (c : ConnectionId)
    (msg : HandshakeMessage) :
    (n.handleHandshake cfg ext c msg).2 =
      if ¬ isValid ext msg then []
      else if msg.generation ≠ 1 then [.syncRecvHandshake msg]
      else if msg.nodeId = cfg.nodeId then []
      else if n.duplicate c msg then []
      else if msg.chainId ≠ cfg.chainId then []
      else if toProtocolVersion msg.networkVersion ≠ netVersion ∧ cfg.networkVersionMatch then []
      else if ¬ authenticatePeer cfg ext n.clock msg then []
      else if n.onFork msg then []
      else [.syncRecvHandshake msg] := by
  rw [← duplicate_connecting]
  unfold Node.handleHandshake
  simp only [apply_ite Prod.snd]
  rfl

/-- A handshake reaches the sync manager if and only if it is valid and, when it is of
generation 1, admitted. -/
theorem handshake_reaches_iff (n : Node) (c : ConnectionId) (msg : HandshakeMessage) :
    .syncRecvHandshake msg ∈ (n.handleHandshake cfg ext c msg).2 ↔
      isValid ext msg = true ∧ (msg.generation = 1 → Admitted cfg ext n c msg) := by
  rw [handleHandshake_calls]
  constructor
  · intro h
    split_ifs at h with hvalid hgeneration hself hduplicate hchain hversion hauth hfork
    all_goals try exact absurd h List.not_mem_nil
    · exact ⟨hvalid, fun hone => absurd hone hgeneration⟩
    · refine ⟨hvalid, fun _ => ⟨hself, Bool.eq_false_iff.mpr hduplicate,
        not_not.mp hchain, ?_, hauth, Bool.eq_false_iff.mpr hfork⟩⟩
      rw [not_and_or, not_not, Bool.not_eq_true] at hversion
      exact hversion
  · rintro ⟨hvalid, hadmitted⟩
    rw [if_neg (not_not.mpr hvalid)]
    by_cases hgeneration : msg.generation = 1
    · obtain ⟨hself, hduplicate, hchain, hversion, hauth, hfork⟩ := hadmitted hgeneration
      rw [← not_not (a := toProtocolVersion _ = _), ← Bool.not_eq_true, ← not_and_or] at hversion
      rw [if_neg (not_not.mpr hgeneration), if_neg hself, hduplicate, if_neg Bool.false_ne_true,
        if_neg (not_not.mpr hchain), if_neg hversion, if_neg (not_not.mpr hauth), hfork,
        if_neg Bool.false_ne_true]
      exact List.mem_singleton_self _
    · rw [if_pos hgeneration]
      exact List.mem_singleton_self _

/-! ### Independence -/

/-- A handshake of generation 1, which the authentication is about. -/
def NetMessage.Opens : NetMessage → Prop
  | .handshake msg => msg.generation = 1
  | _ => False

def Config.allowing (cfg : Config) (allowed : PossibleConnections) (peers : List PublicKey) :
    Config :=
  { cfg with allowedConnections := allowed, allowedPeers := peers }

/-- Which peers are allowed makes no difference to any other message. -/
theorem handleMessage_allowing (n : Node) (c : ConnectionId) {msg : NetMessage}
    (hmsg : ¬ msg.Opens) (allowed : PossibleConnections) (peers : List PublicKey) :
    n.handleMessage (cfg.allowing allowed peers) ext perform c msg =
      n.handleMessage cfg ext perform c msg := by
  cases msg with
  | handshake msg =>
      have hgeneration : msg.generation ≠ 1 := hmsg
      simp only [Node.handleMessage, Node.handleHandshake, if_pos hgeneration]
  | signedBlock msg => rfl
  | _ => rfl

def NodeEvent.Opens : NodeEvent → Prop
  | .message _ msg => msg.Opens
  | .outside _ => False

theorem deliveries_allowing (allowed : PossibleConnections) (peers : List PublicKey)
    {es : List NodeEvent} (hes : ∀ e ∈ es, ¬ e.Opens) (n : Node) :
    deliveries (cfg.allowing allowed peers) ext perform n es = deliveries cfg ext perform n es := by
  induction es generalizing n with
  | nil => rfl
  | cons e es ih =>
      rw [List.forall_mem_cons] at hes
      cases e with
      | message c msg =>
          rw [deliveries, deliveries, handleMessage_allowing n c hes.1, ih hes.2]
      | outside w => exact ih hes.2 w

/-- In every run, a handshake reaches the sync manager if and only if it is valid and, when
it is of generation 1, it is to an allowed peer on the same chain and passes the other
checks.  As long as no handshake of generation 1 arrives, the run is the same whichever
peers are allowed: nothing else is authenticated. -/
theorem authentication_gates_handshakes (n : Node) (es : List NodeEvent) :
    (∀ d ∈ deliveries cfg ext perform n es, ∀ msg, d.msg = .handshake msg →
      (.syncRecvHandshake msg ∈ d.calls ↔
        isValid ext msg = true ∧ (msg.generation = 1 → Admitted cfg ext d.node d.conn msg))) ∧
      ((∀ e ∈ es, ¬ e.Opens) → ∀ allowed peers,
        deliveries (cfg.allowing allowed peers) ext perform n es =
          deliveries cfg ext perform n es) := by
  refine ⟨deliveries_induction (fun n c msg msg' heq => ?_) n es,
    fun hes allowed peers => deliveries_allowing allowed peers hes n⟩
  cases heq
  exact handshake_reaches_iff n c msg'

/-- Signatures hold the key they were made with. -/
def keyedExternals : Externals :=
  { blankExternals with hash := fun _ => 1, recover := fun sig _ => some ⟨sig.data⟩ }

def keyedHandshake (key : PublicKey) (p2pAddress : String) : HandshakeMessage where
  networkVersion := netVersionBase + netVersion
  nodeId := 9
  key := key
  token := 1
  sig := ⟨key.data⟩
  p2pAddress := p2pAddress
  os := "linux"
  generation := 1

/-- Of two peers, the one whose key is allowed is admitted. -/
theorem authentication_gates_keys :
    let cfg : Config := { allowedConnections := { specified := true }, allowedPeers := [⟨[7]⟩] }
    let n : Node := { connections := [1, 2], conn := fun _ => Connection.ofSocket }
    let ds := deliveries cfg keyedExternals (fun _ _ n => n) n
      [.message 1 (.handshake (keyedHandshake ⟨[7]⟩ "a")),
        .message 2 (.handshake (keyedHandshake ⟨[8]⟩ "b"))]
    ds.map Delivery.calls = [[.syncRecvHandshake (keyedHandshake ⟨[7]⟩ "a")], []] ∧
      Admitted cfg keyedExternals n 1 (keyedHandshake ⟨[7]⟩ "a") := by
  refine ⟨by decide +kernel, ?_⟩
  refine (((@authentication_gates_handshakes _ _ (fun _ _ n => n) _ [.message 1 _]).1 _
    List.mem_cons_self _ rfl).mp ?_).2 rfl
  decide +kernel

/-! ### Keys and clocks -/

/-- What a handshake has to show, but for its time: an allowed key, the token of its time, and
a signature of the token that is made with this key. -/
structure Authentic (cfg : Config) (ext : Externals) (msg : HandshakeMessage) : Prop where
  key : msg.key ∈ cfg.allowedPeers ∨ msg.key ∈ cfg.privateKeys ∨ ext.isProducerKey msg.key = true
  tokenNonzero : msg.token ≠ 0
  token : ext.hash msg.time = msg.token
  signed : msg.sig ≠ {}
  recovered : ext.recover msg.sig msg.token = some msg.key

/-- Where connections are only allowed by key, the check of the time is the one that is left. -/
theorem authenticatePeer_iff {clock : ℤ} {msg : HandshakeMessage}
    (hany : cfg.allowedConnections.any = false) (hkeyed : cfg.allowedConnections.keyed = true) :
    authenticatePeer cfg ext clock msg = true ↔
      Authentic cfg ext msg ∧ (clock - msg.time).bmod (2 ^ 64) ≤ peerAuthenticationInterval := by
  have hsome : cfg.allowedConnections ≠ {} := fun h => by
    rw [h] at hkeyed
    cases hkeyed
  have hnotAny : cfg.allowedConnections ≠ { any := true } := fun h => by
    rw [h] at hany
    cases hany
  rw [authenticatePeer, if_neg hsome, if_neg hnotAny, hkeyed]
  constructor
  · intro h
    split_ifs at h with hkey htime hblank htoken
    · rw [not_and, not_and, not_and, not_not] at hkey
      rw [ne_eq, not_not] at htoken
      cases hrecover : ext.recover msg.sig msg.token with
      | none =>
          rw [hrecover] at h
          cases h
      | some peerKey =>
          rw [hrecover] at h
          have heq : peerKey = msg.key := by simpa using h
          subst heq
          refine ⟨⟨?_, hblank.2, htoken, hblank.1, hrecover⟩, not_lt.mp htime⟩
          by_contra hno
          rw [not_or, not_or] at hno
          exact hno.2.2 (hkey rfl hno.1 hno.2.1)
    · cases h
  · rintro ⟨⟨hkey, hnonzero, htoken, hsigned, hrecovered⟩, htime⟩
    have hallowed : ¬ (true = true ∧ msg.key ∉ cfg.allowedPeers ∧ msg.key ∉ cfg.privateKeys ∧
        ¬ ext.isProducerKey msg.key = true) := by
      rintro ⟨-, hpeer, hprivate, hproducer⟩
      rcases hkey with hkey | hkey | hkey
      · exact hpeer hkey
      · exact hprivate hkey
      · exact hproducer hkey
    rw [if_neg hallowed, if_neg (not_lt.mpr htime), if_pos ⟨hsigned, hnonzero⟩,
      if_neg (not_not.mpr htoken), hrecovered]
    simp

/-- A number of 64 bits. -/
def IsInt64 (x : ℤ) : Prop := -2 ^ 63 ≤ x ∧ x < 2 ^ 63

instance (x : ℤ) : Decidable (IsInt64 x) := inferInstanceAs (Decidable (_ ∧ _))

/-- A peer is accepted exactly when its handshake is authentic and not older or newer than one
second, if and only if an authentic one is at most one second ahead of the clock and the
difference of the times does not wrap to one that is small enough. -/
theorem authenticatePeer_skew_iff {clock : ℤ} {msg : HandshakeMessage}
    (hany : cfg.allowedConnections.any = false) (hkeyed : cfg.allowedConnections.keyed = true)
    (hclock : IsInt64 clock) (htime : IsInt64 msg.time) :
    (authenticatePeer cfg ext clock msg = true ↔
      Authentic cfg ext msg ∧ |msg.time - clock| ≤ peerAuthenticationInterval) ↔
    (Authentic cfg ext msg →
      msg.time ≤ clock + peerAuthenticationInterval ∧ clock - msg.time < 2 ^ 63 ∨
        2 ^ 63 < msg.time - clock ∧ msg.time - clock < 2 ^ 64 - peerAuthenticationInterval) := by
  have hinterval : peerAuthenticationInterval = 1000000000 := rfl
  obtain ⟨hclockLow, hclockHigh⟩ := hclock
  obtain ⟨htimeLow, htimeHigh⟩ := htime
  rw [authenticatePeer_iff hany hkeyed, and_congr_right_iff]
  refine imp_congr_right fun _ => ?_
  rw [abs_le, Int.bmod_def]
  split <;> constructor <;> intro h <;> omega

/-- Key `7` is the only one allowed. -/
def onlySeven : Config :=
  { allowedConnections := { specified := true }, allowedPeers := [⟨[7]⟩] }

theorem authenticatePeer_skew_behind :
    authenticatePeer onlySeven keyedExternals 500000000 (keyedHandshake ⟨[7]⟩ "a") = true ↔
      Authentic onlySeven keyedExternals (keyedHandshake ⟨[7]⟩ "a") ∧
        |0 - 500000000| ≤ peerAuthenticationInterval :=
  (@authenticatePeer_skew_iff onlySeven keyedExternals 500000000 (keyedHandshake ⟨[7]⟩ "a")
    rfl rfl (by decide) (by decide)).mpr fun _ => .inl (by decide)

/-- A handshake from a clock that is an hour ahead is accepted. -/
theorem authenticatePeer_skew_ahead :
    ¬ ∀ (cfg : Config) (ext : Externals) (clock : ℤ) (msg : HandshakeMessage),
      cfg.allowedConnections.any = false → cfg.allowedConnections.keyed = true →
      IsInt64 clock → IsInt64 msg.time →
      (authenticatePeer cfg ext clock msg = true ↔
        Authentic cfg ext msg ∧ |msg.time - clock| ≤ peerAuthenticationInterval) := by
  intro hall
  have hiff := hall onlySeven keyedExternals 0
    { keyedHandshake ⟨[7]⟩ "a" with time := 3600000000000 } rfl rfl (by decide) (by decide)
  exact absurd (hiff.mp (by decide +kernel)).2 (by decide)

/-! ### Messages that are not handshakes -/

/-- The message is a handshake, of any generation, that is on the chain of the node and
authentic. -/
def Delivery.Passed (cfg : Config) (ext : Externals) (d : Delivery) : Prop :=
  ∃ msg, d.msg = .handshake msg ∧ msg.chainId = cfg.chainId ∧
    authenticatePeer cfg ext d.node.clock msg = true

/-- The messages that need no authentication. -/
def NetMessage.exempt : NetMessage → Bool
  | .handshake _ | .goAway _ | .time _ => true
  | _ => false

/-- Every call of a message that is not exempt comes after a handshake on the same
connection that has passed. -/
def Gated (cfg : Config) (ext : Externals) (ds : List Delivery) : Prop :=
  ∀ before d after, ds = before ++ d :: after → d.calls ≠ [] → d.msg.exempt = false →
    ∃ d' ∈ before, d'.conn = d.conn ∧ d'.Passed cfg ext

/-- A node that only allows specified peers accepts a connection and gets a notice. -/
theorem notice_not_gated :
    let cfg : Config := { allowedConnections := { specified := true } }
    let n : Node := { connections := [1], conn := fun _ => Connection.ofSocket }
    let ds := deliveries cfg blankExternals (fun _ _ n => n) n [.message 1 (.notice aheadNotice)]
    ds.map Delivery.calls = [[.syncRecvNotice aheadNotice]] ∧ ¬ Gated cfg blankExternals ds := by
  refine ⟨rfl, fun hgated => ?_⟩
  obtain ⟨d', hd', -⟩ := hgated [] _ [] rfl (by decide) rfl
  cases hd'

end Xidata.Net
