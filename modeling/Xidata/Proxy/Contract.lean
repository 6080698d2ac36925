import Xidata.Token.Contract

/-!
The proxy contract on its account `self`.  What is transferred to the proxy it passes on to its
owner, by a deferred transaction for each transfer; one that fails it sends again under a new id.
-/

namespace Xidata.Proxy

open Eosiolib

structure Config where
  owner : AccountName := 0
  delay : UInt32 := 0
  nextId : UInt32 := 0
  deriving DecidableEq

/-- A transfer from the proxy. -/
structure Forward where
  to_ : AccountName
  quantity : Asset
  memo : String
  deriving DecidableEq

/-- A deferred transaction of the proxy; its sender id is `id`. -/
structure Deferred where
  id : UInt32
  delaySec : UInt32
  forward : Forward
  deriving DecidableEq

/-- The row of the contract, and the transactions of its that are pending. -/
structure State where
  config : Option Config := none
  sent : List Deferred := []
  deriving DecidableEq

/-- `transaction::send`, which fails for an id that is in use. -/
def send (s : State) (d : Deferred) : Result State := do
  eosioAssert .deferred (∀ d' ∈ s.sent, d'.id ≠ d.id) ""
  pure { s with sent := s.sent ++ [d] }

/-- The next id is taken, and what is sent with it has the delay that is set. -/
def sendNext (s : State) (codeConfig : Config) (f : Forward) : Result State :=
  send { s with config := some { codeConfig with nextId := codeConfig.nextId + 1 } }
    ⟨codeConfig.nextId, codeConfig.delay, f⟩

/-- The proxy is told of a transfer. -/
def applyTransfer (self : AccountName) (s : State) (from_ to_ : AccountName) (quantity : Asset)
    (memo : String) : Result State := do
  let codeConfig ← getRow .apply s.config "Attempting to use unconfigured proxy"
  if from_ = self then
    eosioAssert .apply (to_ = codeConfig.owner) "proxy may only pay its owner"
    pure s
  else
    eosioAssert .apply (to_ = self) "proxy is not involved in this transfer"
    sendNext s codeConfig ⟨codeConfig.owner, quantity, memo⟩

def applySetowner (c : Ctx) (s : State) (owner : AccountName) (delay : UInt32) : Result State := do
  requireAuth c owner
  let codeConfig := s.config.getD {}
  pure { s with config := some { codeConfig with owner, delay } }

def applyOnerror (s : State) (f : Forward) : Result State := do
  let codeConfig ← getRow .apply s.config "Attempting use of unconfigured proxy"
  sendNext s codeConfig f

/-! ### The chain -/

/-- The token contract and the proxy.  The lists tell what has been transferred to the proxy, what
it has paid by its deferred transactions, what has been dropped of them, and what has been
transferred from it otherwise. -/
structure Chain where
  token : Token.State
  proxy : State := {}
  received : List Forward := []
  paid : List Forward := []
  dropped : List Forward := []
  withdrawn : List Forward := []

/-- Both sides of a transfer are told. -/
def notify (self : AccountName) (w : Chain) : Token.Action → Result Chain
  | .transfer from_ to_ quantity memo =>
    if from_ = self then do
      let proxy ← applyTransfer self w.proxy from_ to_ quantity memo
      pure { w with proxy, withdrawn := w.withdrawn ++ [⟨to_, quantity, memo⟩] }
    else if to_ = self then do
      let proxy ← applyTransfer self w.proxy from_ to_ quantity memo
      let owner := (w.proxy.config.getD {}).owner
      pure { w with proxy, received := w.received ++ [⟨owner, quantity, memo⟩] }
    else pure w
  | _ => pure w

def applyInline (self : AccountName) (c : Ctx) (w : Chain) (i : Token.Inline) : Result Chain := do
  let token ← Token.applyInline c w.token i
  notify self { w with token } i.action

/-- An action of the token contract, those that are told of it, and the inline actions it sends. -/
def exec (self : AccountName) (c : Ctx) (w : Chain) (a : Token.Action) : Result Chain := do
  let r ← Token.apply c w.token a
  let w ← notify self { w with token := r.1 } a
  r.2.foldlM (applyInline self c) w

/-- The transfer of a deferred transaction that is no longer pending, unless the chain itself
refuses it. -/
def pay (self : AccountName) (c : Ctx) (w : Chain) (rest : State) (f : Forward) (refused : Bool) :
    Result Chain := do
  eosioAssert .deferred (refused = false) ""
  let token ← Token.transfer { c with auth := [self] } w.token self f.to_ f.quantity f.memo
  let proxy ← applyTransfer self rest self f.to_ f.quantity f.memo
  pure { w with token, proxy, paid := w.paid ++ [f] }

/-- A deferred transaction is executed.  Where it fails the proxy is asked, and where the proxy
fails it is dropped. -/
def execute (self : AccountName) (c : Ctx) (w : Chain) (d : Deferred) (refused : Bool) : Chain :=
  let rest := { w.proxy with sent := w.proxy.sent.erase d }
  match pay self c w rest d.forward refused with
  | .ok w => w
  | .error _ =>
    match applyOnerror rest d.forward with
    | .ok proxy => { w with proxy }
    | .error _ => { w with proxy := rest, dropped := w.dropped ++ [d.forward] }

/-- A deferred transaction is dropped when its time is over. -/
def expire (w : Chain) (d : Deferred) : Chain :=
  { w with
    proxy := { w.proxy with sent := w.proxy.sent.erase d }
    dropped := w.dropped ++ [d.forward] }

def findSent (w : Chain) (id : UInt32) : Result Deferred :=
  getRow .deferred (w.proxy.sent.find? (·.id = id)) ""

inductive Event
  | token (c : Ctx) (action : Token.Action)
  | setowner (c : Ctx) (owner : AccountName) (delay : UInt32)
  | execute (c : Ctx) (id : UInt32) (refused : Bool)
  | expire (id : UInt32)

def step (self : AccountName) (w : Chain) : Event → Result Chain
  | .token c action => exec self c w action
  | .setowner c owner delay => do
    let proxy ← applySetowner c w.proxy owner delay
    pure { w with proxy }
  | .execute c id refused => do
    let d ← findSent w id
    pure (execute self c w d refused)
  | .expire id => do
    let d ← findSent w id
    pure (expire w d)

end Xidata.Proxy
