import Mathlib.Logic.Function.Basic
import Xidata.Eosiolib.MultiIndex
import Xidata.Library.ByteCode

/-!
The identity contract.  Accounts certify properties of identities; a certification is flagged
as trusted if the certifier is, which the active producers decide.  The owner of an identity
is a property like others, but an account that certifies itself as the owner claims the
identity, and an account claims one identity at a time.
-/

namespace Xidata.Identity

open Eosiolib (AccountName Bytes Scoped noAvailablePrimaryKey)

abbrev IdentityName := UInt64
abbrev PropertyName := UInt64

/-- `N(owner)`. -/
def owner : PropertyName := 0xA726AB8000000000

inductive Failure
  | assertion (msg : String)
  | missingAuthority (account : AccountName)
  deriving DecidableEq

abbrev Result := Except Failure

def eosioAssert (test : Prop) [Decidable test] (msg : String) : Result Unit :=
  if test then .ok () else .error (.assertion msg)

/-- What one action sees of the chain: the authorities it carries and the active producers. -/
structure Ctx where
  auth : List AccountName
  activeProducers : List AccountName
  deriving DecidableEq

def requireAuth (c : Ctx) (account : AccountName) : Result Unit :=
  if account ∈ c.auth then .ok () else .error (.missingAuthority account)

/-! ### The tables -/

/-- A confidence of zero deletes. -/
structure CertValue where
  property : PropertyName
  type : Bytes := []
  data : Bytes
  confidence : UInt8 := 1
  deriving DecidableEq

structure CertRow where
  property : PropertyName
  trusted : UInt64
  certifier : AccountName
  confidence : UInt8 := 0
  type : Bytes := []
  data : Bytes
  deriving DecidableEq

structure TrustRow where
  account : AccountName
  deriving DecidableEq

/-- Keys of this sort compare by their words. -/
abbrev CertKey := UInt64 ×ₗ UInt64 ×ₗ UInt64

def CertRow.key (property trusted certifier : UInt64) : CertKey :=
  toLex (property, toLex (trusted, certifier))

def CertRow.getKey (row : CertRow) : CertKey := key row.property row.trusted row.certifier

/-- The certifications of one identity, by `id`. -/
abbrev CertsTable := OrderedTable UInt64 CertRow

/-- `trust` has a row for the account `key` that the account `scope` trusts; of `accounts`,
which has one row at most for each account, the value. -/
structure State where
  idents : OrderedTable IdentityName AccountName
  certs : IdentityName → CertsTable
  accounts : OrderedTable AccountName IdentityName
  trust : OrderedTable Scoped TrustRow

def State.init : State := ⟨.empty, fun _ => .empty, .empty, .empty⟩

/-- `*reinterpret_cast<const account_name*>(data.data())`. -/
def accountOf (data : Bytes) : AccountName := .ofNat (ByteCode.ofLittleEndian data)

/-- The data that name an account. -/
def ownerData (acnt : AccountName) : Bytes := ByteCode.littleEndian 8 acnt.toNat

/-! ### Trust -/

def State.isTrustedBy (s : State) (trusted by_ : AccountName) : Bool :=
  (s.trust.find ⟨by_, trusted⟩).isSome

/-- There is room for 21 of the active producers. -/
def State.isTrusted (s : State) (activeProducers : List AccountName) (acnt : AccountName) : Bool :=
  let producers := activeProducers.take 21
  producers.contains acnt || producers.any fun producer => s.isTrustedBy acnt producer

def settrust (c : Ctx) (s : State) (trustor trusting : AccountName) (trust : UInt8) :
    Result State := do
  requireAuth c trustor
  let itr := s.trust.find ⟨trustor, trusting⟩
  if itr = none ∧ 0 < trust then
    pure { s with trust := s.trust.set ⟨trustor, trusting⟩ ⟨trusting⟩ }
  else if itr ≠ none ∧ trust = 0 then
    pure { s with trust := s.trust.erase ⟨trustor, trusting⟩ }
  else pure s

/-! ### Identities and certifications -/

def create (c : Ctx) (s : State) (creator : AccountName) (identity : IdentityName) :
    Result State := do
  requireAuth c creator
  eosioAssert (s.idents.find identity = none) "identity already exists"
  eosioAssert (identity ≠ 0) "identity=0 is not allowed"
  pure { s with idents := s.idents.set identity creator }

/-- What `certprop` writes; the object for the table keeps the next key once it was asked
for. -/
structure Writing where
  certs : CertsTable
  nextPrimaryKey : Option UInt64
  accounts : OrderedTable AccountName IdentityName

/-- The row not below a key, if it has that key. -/
def lookup (certs : CertsTable) (property trusted certifier : UInt64) :
    Option (UInt64 × CertRow) :=
  (certs.firstBy CertRow.getKey fun k => CertRow.key property trusted certifier ≤ (ofLex k).1).filter
    fun itr => itr.2.property = property ∧ itr.2.trusted = trusted ∧ itr.2.certifier = certifier

def Writing.availablePrimaryKey (w : Writing) : Result UInt64 := do
  let next := w.nextPrimaryKey.getD ((w.certs.last fun _ => true).elim 0 fun q =>
    if noAvailablePrimaryKey ≤ q.1 then noAvailablePrimaryKey else q.1 + 1)
  eosioAssert (next < noAvailablePrimaryKey) "next primary key in table is at autoincrement limit"
  pure next

def Writing.emplace (w : Writing) (row : CertRow) : Result Writing := do
  let pk ← w.availablePrimaryKey
  eosioAssert (w.certs.find pk = none) "row already exists"
  pure { w with certs := w.certs.set pk row, nextPrimaryKey := some (pk + 1) }

def Writing.put (w : Writing) (value : CertValue) (trusted certifier : UInt64) : Result Writing :=
  match lookup w.certs value.property trusted certifier with
  | some itr => pure { w with certs := w.certs.set itr.1 { itr.2 with
      confidence := value.confidence, type := value.type, data := value.data } }
  | none => w.emplace { value with trusted := trusted, certifier := certifier }

def Writing.erase (w : Writing) (property trusted certifier : UInt64) : Writing :=
  match lookup w.certs property trusted certifier with
  | some itr => { w with certs := w.certs.erase itr.1 }
  | none => w

/-- Whom an owner value is about. -/
def ownerAccount (value : CertValue) : Result AccountName := do
  eosioAssert (value.data.length = 8) "data size doesn't match account_name size"
  pure (accountOf value.data)

/-- The flag as it is in a row. -/
def flag (trusted : Bool) : UInt64 := if trusted then 1 else 0

def certValue (identity : IdentityName) (certifier : AccountName) (trusted : Bool) (w : Writing)
    (value : CertValue) : Result Writing :=
  if value.confidence ≠ 0 then do
    eosioAssert (value.type.length ≤ 32) "certrow::type should be not longer than 32 bytes"
    let w ← w.put value (flag trusted) certifier
    let w := w.erase value.property (flag !trusted) certifier
    if value.property = owner then
      let acnt ← ownerAccount value
      -- Only self-certification affects the accounts table.
      if certifier = acnt then pure { w with accounts := w.accounts.set acnt identity } else pure w
    else pure w
  else do
    let w := w.erase value.property (flag trusted) certifier
    let w := w.erase value.property (flag !trusted) certifier
    if value.property = owner then
      let acnt ← ownerAccount value
      if certifier = acnt then pure { w with accounts := w.accounts.erase acnt } else pure w
    else pure w

def certprop (c : Ctx) (s : State) (billStorageTo certifier : AccountName)
    (identity : IdentityName) (values : List CertValue) : Result State := do
  requireAuth c certifier
  if billStorageTo ≠ certifier then requireAuth c billStorageTo
  eosioAssert (s.idents.find identity ≠ none) "identity does not exist"
  let trusted := s.isTrusted c.activeProducers certifier
  let w ← values.foldlM (certValue identity certifier trusted) ⟨s.certs identity, none, s.accounts⟩
  pure { s with certs := Function.update s.certs identity w.certs, accounts := w.accounts }

/-! ### Steps -/

inductive Action
  | create (creator : AccountName) (identity : IdentityName)
  | certprop (billStorageTo certifier : AccountName) (identity : IdentityName)
      (values : List CertValue)
  | settrust (trustor trusting : AccountName) (trust : UInt8)
  deriving DecidableEq

/-- The producers may be others at each action. -/
structure Event where
  ctx : Ctx
  action : Action
  deriving DecidableEq

def step (s : State) (e : Event) : Result State :=
  match e.action with
  | .create creator identity => create e.ctx s creator identity
  | .certprop billStorageTo certifier identity values =>
    certprop e.ctx s billStorageTo certifier identity values
  | .settrust trustor trusting trust => settrust e.ctx s trustor trusting trust

end Xidata.Identity
