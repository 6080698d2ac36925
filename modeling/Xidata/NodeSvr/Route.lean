import Mathlib.Data.Nat.Notation
import Mathlib.Logic.Function.Basic

/-!
The node server that takes requests to the contracts.  Its modules do not declare the
variables in which they keep the handler of a request and the client of the chain, so that
there is one of each for all requests.  A handler keeps the response it is made for in a
variable of its own.  The client of the chain, `JSON` and the decoding of a chunk of a body
are given by a `Runtime`.
-/

namespace Xidata.NodeSvr

inductive Json
  | null
  | bool (b : Bool)
  | num (literal : String)
  | str (s : String)
  | arr (elements : List Json)
  | obj (fields : List (String × Json))

namespace Json

def isNull : Json → Bool
  | .null => true
  | _ => false

/-- A property, `none` if it is undefined. -/
def get (json : Json) (name : String) : Option Json :=
  match json with
  | .obj fields => (fields.reverse.find? fun field => field.1 = name).map Prod.snd
  | _ => none

end Json

structure Runtime where
  toText : List UInt8 → String
  parse : String → Option Json
  stringify : Json → String
  privateToPublic : String → String

/-! ### Handlers -/

/-- An action that is pushed to a contract. -/
structure Call where
  contract : String
  action : String
  args : List (Option Json)
  authorization : List String

namespace Transfer

def trans (fromUser fromPubKey toUser toPubKey asset memo : Option Json) : Call where
  contract := "fbstransfer"
  action := "transfer"
  args := [fromUser, fromPubKey, toUser, toPubKey, asset, memo]
  authorization := ["fbstransfer"]

end Transfer

namespace Redenvelop

def call (action : String) (args : List (Option Json)) : Call where
  contract := "redenvelope"
  action := action
  args := args
  authorization := ["redenvelope"]

def recv (user userPK asset memo : Option Json) : Call := call "recv" [user, userPK, asset, memo]

def send (user userPK asset num memo : Option Json) : Call :=
  call "send" [user, userPK, asset, num, memo]

end Redenvelop

namespace Egggame

def call (action : String) (args : List (Option Json)) : Call where
  contract := "egggame"
  action := action
  args := args
  authorization := ["egggame"]

def create (gameid creator category memo : Option Json) : Call :=
  call "create" [gameid, creator, category, memo]

def bet (gameid gamename user userPK quantity memo : Option Json) : Call :=
  call "bet" [gameid, gamename, user, userPK, quantity, memo]

def settlement (gameid gamename user userPK quantity memo : Option Json) : Call :=
  call "settlement" [gameid, gamename, user, userPK, quantity, memo]

end Egggame

/-- The variables that hold a handler. -/
inductive HandlerVar
  | trans | redenv | egggame
  deriving DecidableEq

/-! ### Routes -/

/-- What is done at the end of a body: which variable gets a handler, and what it calls. -/
structure Exec where
  handler : HandlerVar
  call : Json → Call

def execTransfer : Exec where
  handler := .trans
  call bodyJson := Transfer.trans (bodyJson.get "from") (bodyJson.get "fromPK") (bodyJson.get "to")
    (bodyJson.get "toPK") (bodyJson.get "asset") (bodyJson.get "memo")

def execRedenvelopSend : Exec where
  handler := .redenv
  call bodyJson := Redenvelop.send (bodyJson.get "user") (bodyJson.get "userPK")
    (bodyJson.get "asset") (bodyJson.get "num") (bodyJson.get "memo")

def execRedenvelopRecv : Exec where
  handler := .redenv
  call bodyJson := Redenvelop.recv (bodyJson.get "user") (bodyJson.get "userPK")
    (bodyJson.get "asset") (bodyJson.get "memo")

def execEggCreate : Exec where
  handler := .egggame
  call bodyJson := Egggame.create (bodyJson.get "gameid") (bodyJson.get "creator")
    (bodyJson.get "category") (bodyJson.get "memo")

def execEggBet : Exec where
  handler := .egggame
  call bodyJson := Egggame.bet (bodyJson.get "gameid") (bodyJson.get "gamename")
    (bodyJson.get "user") (bodyJson.get "userPK") (bodyJson.get "quantity") (bodyJson.get "memo")

def execEggsettlement : Exec where
  handler := .egggame
  call bodyJson := Egggame.settlement (bodyJson.get "gameid") (bodyJson.get "gamename")
    (bodyJson.get "user") (bodyJson.get "userPK") (bodyJson.get "quantity") (bodyJson.get "memo")

/-- Other paths are only logged. -/
inductive Route
  | exec (e : Exec)
  | createkey
  | logged

def route (pathname : String) : Route :=
  match pathname with
  | "/" => .logged
  | "/fbstransfer" => .exec execTransfer
  | "/redenvelope/send" => .exec execRedenvelopSend
  | "/redenvelope/recv" => .exec execRedenvelopRecv
  | "/egggame/create" => .exec execEggCreate
  | "/egggame/bet" => .exec execEggBet
  | "/egggame/settlement" => .exec execEggsettlement
  | "/createkey" => .createkey
  | _ => .logged

/-- A request, and what of its body has arrived. -/
structure Request where
  method : String
  pathname : String
  body : String := ""
  ended : Bool := false
  deriving DecidableEq

/-- Only posts are handled. -/
def Request.route (r : Request) : Route :=
  if r.method = "POST" then NodeSvr.route r.pathname else .logged

/-! ### The event loop -/

structure Config where
  httpEndpoint : String
  chainId : String
  expireInSeconds : ℕ := 60
  broadcast : Bool := true
  sign : Bool := true
  deriving DecidableEq

/-- A promise of the client of the chain, of a contract or of the result of an action, with
the handler whose callback waits for it. -/
structure Promised where
  client : Config
  handler : ℕ
  call : Call

/-- What a response carries: the result of an action, or a key that was made. -/
inductive Cause
  | result (call : Call) (result : Json)
  | key (privateKey : String)

structure Reply where
  res : ℕ
  statusCode : ℕ := 200
  contentType : String := "application/json"
  cause : Cause
  text : String

/-- Requests and their responses are numbered, and so are the handlers; `handlers` has the
response that each of them keeps.  `replies` are the calls of `end` on a response.  An
exception in a listener ends the process. -/
structure Gateway where
  alive : Bool := true
  config : Config
  eos : Option Config := none
  vars : HandlerVar → Option ℕ := fun _ => none
  handlers : List (Option ℕ) := []
  requests : List Request := []
  lookups : List Promised := []
  pushes : List Promised := []
  keys : List ℕ := []
  replies : List Reply := []

inductive GatewayEvent
  | request (method pathname : String)
  | data (k : ℕ) (chunk : List UInt8)
  | ended (k : ℕ)
  /-- The `i`-th contract that is being looked up is found. -/
  | contract (i : ℕ)
  /-- The `i`-th action that has been pushed has a result. -/
  | pushed (i : ℕ) (result : Json)
  | randomKey (i : ℕ) (privateKey : String)

namespace Gateway

/-- The server has started. -/
def start (config : Config) : Gateway := { config := config }

def throw (s : Gateway) : Gateway := { s with alive := false }

def newHandler (s : Gateway) (v : HandlerVar) : Gateway :=
  { s with
    vars := Function.update s.vars v (some s.handlers.length)
    handlers := s.handlers ++ [none] }

/-- `setRes` of the handler in a variable. -/
def setRes (s : Gateway) (v : HandlerVar) (res : ℕ) : Gateway :=
  match s.vars v with
  | none => s.throw
  | some handler => { s with handlers := s.handlers.set handler (some res) }

def newClient (s : Gateway) : Gateway := { s with eos := some s.config }

/-- The handler in a variable makes a client and looks the contract up. -/
def invoke (s : Gateway) (v : HandlerVar) (call : Call) : Gateway :=
  match s.vars v, s.newClient.eos with
  | some handler, some client =>
    { s.newClient with lookups := s.lookups ++ [⟨client, handler, call⟩] }
  | _, _ => s.throw

/-- The listener for the end of a body. -/
def onEnd (rt : Runtime) (s : Gateway) (k : ℕ) (e : Exec) (body : String) : Gateway :=
  match rt.parse body with
  | none => s.throw
  | some bodyJson =>
    let s := (s.newHandler e.handler).setRes e.handler k
    -- The properties of null cannot be read.
    if bodyJson.isNull then s.throw else s.invoke e.handler (e.call bodyJson)

def onRequest (s : Gateway) (method pathname : String) : Gateway :=
  let r : Request := { method := method, pathname := pathname }
  let k := s.requests.length
  let s := { s with requests := s.requests ++ [r] }
  match r.route with
  | .createkey => { s with keys := s.keys ++ [k] }
  | _ => s

/-- The callback of a contract pushes the action. -/
def onContract (s : Gateway) (i : ℕ) (p : Promised) : Gateway :=
  { s with lookups := s.lookups.eraseIdx i, pushes := s.pushes ++ [p] }

/-- The callback of a result reads the response that the handler keeps. -/
def onPushed (rt : Runtime) (s : Gateway) (i : ℕ) (p : Promised) (result : Json) : Gateway :=
  let s := { s with pushes := s.pushes.eraseIdx i }
  match s.handlers[p.handler]?.join with
  | none => s
  | some res => { s with
      replies := s.replies ++
        [{ res := res, cause := .result p.call result, text := rt.stringify result }] }

def keyBody (rt : Runtime) (privateKey : String) : Json :=
  .obj [("Private Key", .str privateKey), ("Public Key", .str (rt.privateToPublic privateKey))]

def onRandomKey (rt : Runtime) (s : Gateway) (i res : ℕ) (privateKey : String) : Gateway :=
  { s with
    keys := s.keys.eraseIdx i
    replies := s.replies ++
      [{ res := res, cause := .key privateKey, text := rt.stringify (keyBody rt privateKey) }] }

def step (rt : Runtime) (s : Gateway) (ev : GatewayEvent) : Except Unit Gateway :=
  if ¬ s.alive then .error ()
  else match ev with
  | .request method pathname => .ok (s.onRequest method pathname)
  | .data k chunk =>
    match s.requests[k]? with
    | none => .error ()
    | some r =>
      if r.ended then .error ()
      else match r.route with
      | .exec _ => .ok { s with
          requests := s.requests.set k { r with body := r.body ++ rt.toText chunk } }
      | _ => .ok s
  | .ended k =>
    match s.requests[k]? with
    | none => .error ()
    | some r =>
      if r.ended then .error ()
      else
        let s := { s with requests := s.requests.set k { r with ended := true } }
        match r.route with
        | .exec e => .ok (s.onEnd rt k e r.body)
        | _ => .ok s
  | .contract i =>
    match s.lookups[i]? with
    | none => .error ()
    | some p => .ok (s.onContract i p)
  | .pushed i result =>
    match s.pushes[i]? with
    | none => .error ()
    | some p => .ok (s.onPushed rt i p result)
  | .randomKey i privateKey =>
    match s.keys[i]? with
    | none => .error ()
    | some res => .ok (s.onRandomKey rt i res privateKey)

end Gateway

end Xidata.NodeSvr
