import Mathlib.Data.Finset.Dedup
import Mathlib.Data.Finset.Empty
import Mathlib.Tactic.Common

/-!
The login plugin.  A client starts a login and gets a key that the server has made for it; with
that key it comes back and shows that it can sign for a permission.  The requests that are pending
are kept in the order in which they expire, at most one for a key.
-/

namespace Xidata.Login

/-- The keys and signatures of the chain library; nothing where it throws. -/
structure Crypto (PrivateKey PublicKey Signature Permission Digest : Type) where
  publicKey : PrivateKey → PublicKey
  sharedSecret : PrivateKey → PublicKey → Option (List UInt8)
  packPermission : Permission → List UInt8
  packSecret : List UInt8 → List UInt8
  packData : List UInt8 → List UInt8
  hash : List UInt8 → Digest
  recover : Signature → Digest → Option PublicKey
  checkAuthorization : Permission → Finset PublicKey → Bool

structure LoginRequest (PrivateKey PublicKey : Type) where
  serverEphemeralPrivKey : PrivateKey
  serverEphemeralPubKey : PublicKey
  expirationTime : UInt32

structure LoginPlugin (PrivateKey PublicKey : Type) where
  requests : List (LoginRequest PrivateKey PublicKey) := []
  maxLoginRequests : UInt32 := 1000000
  maxLoginTimeout : UInt32 := 60

structure FinalizeLoginRequestParams (PublicKey Signature Permission : Type) where
  serverEphemeralPubKey : PublicKey
  clientEphemeralPubKey : PublicKey
  permission : Permission
  data : List UInt8
  signatures : List Signature

structure FinalizeLoginRequestResults (PublicKey Digest : Type) where
  digest : Option Digest := none
  recoveredKeys : Finset PublicKey := ∅
  permissionSatisfied : Bool := false
  error : String := ""
  deriving DecidableEq

variable {PrivateKey PublicKey Signature Permission Digest : Type} [DecidableEq PublicKey]

/-- A time in seconds as microseconds. -/
def timePoint (seconds : UInt32) : ℕ := seconds.toNat * 1000000

namespace LoginPlugin

/-- The loop from the request on that expires first. -/
def expireRequests (s : LoginPlugin PrivateKey PublicKey) (now : ℕ) :
    LoginPlugin PrivateKey PublicKey :=
  { s with requests := s.requests.dropWhile fun r => timePoint r.expirationTime < now }

/-- A request comes after those that expire at the same time, unless there is one for its key. -/
def insert (s : LoginPlugin PrivateKey PublicKey) (r : LoginRequest PrivateKey PublicKey) :
    LoginPlugin PrivateKey PublicKey :=
  if s.requests.any fun r' => r'.serverEphemeralPubKey = r.serverEphemeralPubKey then s
  else
    { s with
      requests := s.requests.takeWhile (·.expirationTime ≤ r.expirationTime) ++
        r :: s.requests.dropWhile (·.expirationTime ≤ r.expirationTime) }

/-- The clock is read three times, and `privKey` generated. -/
def startLoginRequest (c : Crypto PrivateKey PublicKey Signature Permission Digest)
    (s : LoginPlugin PrivateKey PublicKey) (expirationTime : UInt32) (now₁ now₂ now₃ : ℕ)
    (privKey : PrivateKey) : LoginPlugin PrivateKey PublicKey × Except String PublicKey :=
  let s := s.expireRequests now₁
  if ¬ now₂ < timePoint expirationTime then
    (s, .error "Requested expiration time ${expiration_time} is in the past")
  else if ¬ s.requests.length < s.maxLoginRequests.toNat then
    (s, .error "Too many pending login requests")
  else
    let pubKey := c.publicKey privKey
    (s.insert
      { serverEphemeralPrivKey := privKey
        serverEphemeralPubKey := pubKey
        expirationTime := min expirationTime (UInt32.ofNat (now₃ / 1000000) + s.maxLoginTimeout) },
      .ok pubKey)

def find (s : LoginPlugin PrivateKey PublicKey) (pubKey : PublicKey) :
    Option (LoginRequest PrivateKey PublicKey) :=
  s.requests.find? fun r => r.serverEphemeralPubKey = pubKey

def erase (s : LoginPlugin PrivateKey PublicKey) (pubKey : PublicKey) :
    LoginPlugin PrivateKey PublicKey :=
  { s with requests := s.requests.filter fun r => r.serverEphemeralPubKey ≠ pubKey }

/-- What is answered to a request that has been found, and taken out; nothing where the chain
library throws, or the data are more than the buffer holds. -/
def answer (c : Crypto PrivateKey PublicKey Signature Permission Digest)
    (p : FinalizeLoginRequestParams PublicKey Signature Permission)
    (r : LoginRequest PrivateKey PublicKey) :
    Option (FinalizeLoginRequestResults PublicKey Digest) := do
  let sharedSecret ← c.sharedSecret r.serverEphemeralPrivKey p.clientEphemeralPubKey
  let combinedData :=
    c.packPermission p.permission ++ c.packSecret sharedSecret ++ c.packData p.data
  guard (combinedData.length ≤ 1024 * 1024)
  let digest := c.hash combinedData
  let recoveredKeys ← p.signatures.mapM (c.recover · digest)
  let satisfied := c.checkAuthorization p.permission recoveredKeys.toFinset
  return {
    digest
    recoveredKeys := recoveredKeys.toFinset
    permissionSatisfied := satisfied
    error := if satisfied then "" else "keys do not satisfy permission" }

def finalizeLoginRequest (c : Crypto PrivateKey PublicKey Signature Permission Digest)
    (s : LoginPlugin PrivateKey PublicKey)
    (p : FinalizeLoginRequestParams PublicKey Signature Permission) (now : ℕ) :
    LoginPlugin PrivateKey PublicKey × Option (FinalizeLoginRequestResults PublicKey Digest) :=
  let s := s.expireRequests now
  match s.find p.serverEphemeralPubKey with
  | none => (s, some { error := "server_ephemeral_pub_key expired or not found" })
  | some r => (s.erase p.serverEphemeralPubKey, answer c p r)

end LoginPlugin

/-! ### Runs -/

/-- A call of a client, with what the clock shows each time that it is read. -/
inductive Event (PrivateKey PublicKey Signature Permission : Type)
  | start (expirationTime : UInt32) (now₁ now₂ now₃ : ℕ) (privKey : PrivateKey)
  | finalize (p : FinalizeLoginRequestParams PublicKey Signature Permission) (now : ℕ)

/-- What has become of the requests, in this order.  A key is used when its request is found. -/
inductive Entry (PublicKey : Type)
  | expired (now : ℕ)
  | started (pubKey : PublicKey) (requested : UInt32) (now : ℕ)
  | used (pubKey : PublicKey) (now : ℕ)
  deriving DecidableEq

/-- What a start that is answered so adds to the history. -/
def startEntries (requested : UInt32) (now : ℕ) :
    Except String PublicKey → List (Entry PublicKey)
  | .ok pubKey => [.started pubKey requested now]
  | .error _ => []

/-- One call, and what it adds to the history. -/
def serve (c : Crypto PrivateKey PublicKey Signature Permission Digest)
    (s : LoginPlugin PrivateKey PublicKey) :
    Event PrivateKey PublicKey Signature Permission →
      LoginPlugin PrivateKey PublicKey × List (Entry PublicKey)
  | .start expirationTime now₁ now₂ now₃ privKey =>
    let result := s.startLoginRequest c expirationTime now₁ now₂ now₃ privKey
    (result.1, .expired now₁ :: startEntries expirationTime now₃ result.2)
  | .finalize p now =>
    ((s.finalizeLoginRequest c p now).1,
      match (s.expireRequests now).find p.serverEphemeralPubKey with
      | some _ => [.expired now, .used p.serverEphemeralPubKey now]
      | none => [.expired now])

/-- The calls one after the other. -/
def run (c : Crypto PrivateKey PublicKey Signature Permission Digest)
    (s : LoginPlugin PrivateKey PublicKey) :
    List (Event PrivateKey PublicKey Signature Permission) →
      LoginPlugin PrivateKey PublicKey × List (Entry PublicKey)
  | [] => (s, [])
  | e :: es =>
    let (s', log) := serve c s e
    let (s'', log') := run c s' es
    (s'', log ++ log')

end Xidata.Login
