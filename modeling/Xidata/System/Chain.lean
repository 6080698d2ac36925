import Xidata.System.ProducerPay
import Xidata.Token.Conservation

/-!
The chain as the two contracts see it.  An event is one action with the
authority it carries and the block time; it runs together with the inline
actions it sends, and a failure anywhere undoes all of it.  A transaction of
several actions is a sequence of events.
-/

namespace Xidata.System

open Eosiolib

inductive Action
  | setram (maxRamSize : UInt64)
  | rmvproducer (producer : AccountName)
  | bidname (bidder newname : AccountName) (bid : Asset)
  | buyrambytes (payer receiver : AccountName) (bytes : UInt32)
  | buyram (payer receiver : AccountName) (quant : Asset)
  | sellram (account : AccountName) (bytes : Int64)
  | delegatebw (from_ receiver : AccountName) (stakeNetQuantity stakeCpuQuantity : Asset)
      (transfer : Bool)
  | undelegatebw (from_ receiver : AccountName) (unstakeNetQuantity unstakeCpuQuantity : Asset)
  | refund (owner : AccountName)
  | regproducer (producer : AccountName) (producerKey : PublicKey) (url : String)
      (location : UInt16)
  | unregprod (producer : AccountName)
  | voteproducer (voterName proxy : AccountName) (producers : List AccountName)
  | regproxy (proxy : AccountName) (isproxy : Bool)
  | onblock (timestamp : UInt32) (producer : AccountName)
  | claimrewards (owner : AccountName)

/-- One action of the system contract: its new tables and the inline actions
it sends. -/
def apply (env : Env) (c : Ctx) (token : Token.State) (s : State) :
    Action → Result (State × List Token.Inline)
  | .setram maxRamSize => (·, []) <$> setram c s maxRamSize
  | .rmvproducer producer => (·, []) <$> rmvproducer c s producer
  | .bidname bidder newname bid => bidname c s bidder newname bid
  | .buyrambytes payer receiver bytes => buyrambytes env c s payer receiver bytes
  | .buyram payer receiver quant => buyram env c s payer receiver quant
  | .sellram account bytes => sellram env c s account bytes
  | .delegatebw from_ receiver net cpu transfer => delegatebw env c s from_ receiver net cpu transfer
  | .undelegatebw from_ receiver net cpu => undelegatebw env c s from_ receiver net cpu
  | .refund owner => refund c s owner
  | .regproducer producer producerKey url location =>
      (·, []) <$> regproducer c s producer producerKey url location
  | .unregprod producer => (·, []) <$> unregprod c s producer
  | .voteproducer voterName proxy producers =>
      (·, []) <$> voteproducer env c s voterName proxy producers
  | .regproxy proxy isproxy => (·, []) <$> regproxy env c s proxy isproxy
  | .onblock timestamp producer => (·, []) <$> onblock env c s timestamp producer
  | .claimrewards owner => claimrewards env c token s owner

structure Chain where
  token : Token.State := .init
  system : State := {}
  accounts : Finset AccountName := ∅

inductive Call
  | token (action : Token.Action)
  | newaccount (creator newact : AccountName)
  | system (action : Action)

structure Event where
  auth : List AccountName
  time : UInt64
  call : Call

def Event.ctx (e : Event) (s : Chain) : Ctx := ⟨e.auth, e.time, s.accounts⟩

/-- An inline action with the inline actions it sends in turn. -/
def execInline (c : Ctx) (t : Token.State) (i : Token.Inline) : Result Token.State :=
  Token.exec { c with auth := i.auth } t i.action

/-- The chain's part of creating an account: the creator's authority, and the
name not yet taken. -/
def createAccount (c : Ctx) (creator newact : AccountName) : Result (Finset AccountName) := do
  requireAuth c creator
  eosioAssert .newaccount (newact ∉ c.accounts) "name is already taken"
  pure (insert newact c.accounts)

def exec (env : Env) (s : Chain) (e : Event) : Result Chain :=
  match e.call with
  | .token action => do
    let token ← Token.exec (e.ctx s) s.token action
    pure { s with token }
  | .newaccount creator newact => do
    let accounts ← createAccount (e.ctx s) creator newact
    let sys ← construct s.token s.system
    let system ← newaccount sys creator newact
    pure { s with system, accounts }
  | .system action => do
    let sys ← construct s.token s.system
    let r ← apply env (e.ctx s) s.token sys action
    let token ← r.2.foldlM (execInline (e.ctx s)) s.token
    pure { s with token, system := r.1 }

/-- The chain after a sequence of events, failed ones rolled back. -/
def run (env : Env) (s : Chain) (es : List Event) : Chain := Rollback.run (exec env) s es

/-! ### A small chain

Fixed inputs for evaluating runs: an environment in which a vote weighs what
is staked and prices are one for one, and the first events of a chain. -/

def Env.flat : Env where
  voteFactor _ := 1
  claimable _ := 0
  issued _ _ x := x
  paid _ _ x := x
  setProposedProducers _ _ := 0
  newTokens _ _ := 0
  perVoteShare _ _ _ := 0

def core (amount : Int64) : Asset := ⟨amount, coreSymbol⟩

/-- The core token exists, then the accounts, and `holder` has all of the token. -/
def genesis (accounts : List AccountName) (holder : AccountName) : List Event :=
  ⟨[Token.self], 0, .token (.create self (core 100000000000000))⟩ ::
    accounts.map (fun a => ⟨[self], 0, .newaccount self a⟩) ++
    [⟨[self], 0, .token (.issue holder (core 10000000000000) "")⟩]

end Xidata.System
