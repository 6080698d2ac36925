import Mathlib.Data.String.Basic
import Mathlib.Logic.Function.Basic
import Xidata.Library.OrderedTable
import Xidata.Library.Rollback

/-!
The wallet that keeps its keys in a file.  Its keys are in memory while it is unlocked, and
under the hash of the password in the cipher text, of which the file has a copy.  Every change
of the keys is written at once: the file is truncated when it is opened, the stream's errors
after that are not looked at.

Keys, hashes, the cipher and JSON are of other libraries and are parameters here.
-/

namespace Xidata.Wallet

open Rollback

abbrev Bytes := List UInt8

/-- `wallet_data`, what a wallet file has. -/
structure WalletData where
  cipherKeys : Bytes
  deriving DecidableEq

/-- `plain_keys`, what the cipher text is of. -/
structure PlainKeys (Hash PublicKey PrivateKey : Type) [LinearOrder PublicKey] where
  checksum : Hash
  keys : OrderedTable PublicKey PrivateKey

/-- What the wallets use of the key, hash, cipher and JSON libraries; nothing where one
throws.  A `Seed` is what a generator draws. -/
structure Primitives where
  PublicKey : Type
  PrivateKey : Type
  Hash : Type
  Digest : Type
  Signature : Type
  Transaction : Type
  ChainId : Type
  Seed : Type
  [publicKeyOrder : LinearOrder PublicKey]
  [hashEq : DecidableEq Hash]
  /-- `fc::sha512()`, the checksum of a locked wallet. -/
  noHash : Hash
  sha512 : String → Hash
  generateK1 : Seed → PrivateKey
  generateR1 : Seed → PrivateKey
  privateKey : String → Option PrivateKey
  wif : PrivateKey → String
  publicKey : PrivateKey → PublicKey
  readPublicKey : String → Option PublicKey
  publicKeyText : PublicKey → String
  sign : PrivateKey → Digest → Signature
  sigDigest : Transaction → ChainId → Digest
  aesEncrypt : Hash → PlainKeys Hash PublicKey PrivateKey → Bytes
  aesDecrypt : Hash → Bytes → Option (PlainKeys Hash PublicKey PrivateKey)
  toPrettyString : WalletData → Bytes
  readWalletData : Bytes → Option WalletData

attribute [instance] Primitives.publicKeyOrder Primitives.hashEq

inductive Exception
  | wallet
  | walletExist
  | walletNonexistent
  | walletLocked
  | walletUnlocked
  | walletNotAvailable
  | walletMissingPubKey
  | walletInvalidPassword
  | keyExist
  | keyNonexistent
  | unsupportedKeyType
  | invalidLockTimeout
  | other
  deriving DecidableEq

structure Error where
  exception : Exception
  message : String
  deriving DecidableEq

abbrev Files := String → Option Bytes

/-- What becomes of a write: the file cannot be opened, or the stream fails after some bytes,
or all bytes reach the file. -/
inductive Disk
  | refuses
  | stopsAfter (count : ℕ)
  | takesAll
  deriving DecidableEq

/-- The bytes in the file after the text has been written to it; nothing if it was not opened. -/
def Disk.written : Disk → Bytes → Option Bytes
  | .refuses, _ => none
  | .stopsAfter count, text => some (text.take count)
  | .takesAll, text => some text

/-- What a method leaves behind, also when it throws. -/
structure Outcome (σ α : Type) where
  object : σ
  files : Files
  result : Except Error α

/-- The outcome without what the method returns. -/
def Outcome.discard {σ α : Type} (o : Outcome σ α) : Outcome σ Unit :=
  ⟨o.object, o.files, o.result.map fun _ => ()⟩

variable (c : Primitives)

structure SoftWallet where
  walletFilename : String
  wallet : WalletData
  keys : OrderedTable c.PublicKey c.PrivateKey
  checksum : c.Hash

variable {c}

namespace SoftWallet

/-! ### Locking -/

/-- The constructor of `soft_wallet`; the file name is set afterwards. -/
def new (walletFilename : String) : SoftWallet c :=
  { walletFilename, wallet := ⟨[]⟩, keys := .empty, checksum := c.noHash }

def isLocked (w : SoftWallet c) : Bool := w.checksum = c.noHash

def isNew (w : SoftWallet c) : Bool := w.wallet.cipherKeys.length = 0

def encryptKeys (w : SoftWallet c) : SoftWallet c :=
  if w.isLocked then w
  else { w with wallet := ⟨c.aesEncrypt w.checksum ⟨w.checksum, w.keys⟩⟩ }

def lock (w : SoftWallet c) : Except Error (SoftWallet c) :=
  if w.isLocked then .error ⟨.walletLocked, "Unable to lock a locked wallet"⟩
  else .ok { w.encryptKeys with keys := .empty, checksum := c.noHash }

/-- The cipher text of the wallet, decrypted with a password. -/
def decrypted (w : SoftWallet c) (password : String) :
    Option (PlainKeys c.Hash c.PublicKey c.PrivateKey) :=
  if password.length = 0 then none
  else (c.aesDecrypt (c.sha512 password) w.wallet.cipherKeys).filter
    fun pk => pk.checksum = c.sha512 password

def invalidPassword (w : SoftWallet c) : Error :=
  ⟨.walletInvalidPassword, "Invalid password for wallet: \"" ++ w.walletFilename ++ "\""⟩

def unlock (w : SoftWallet c) (password : String) : Except Error (SoftWallet c) :=
  (w.decrypted password).elim (.error w.invalidPassword) fun pk =>
    .ok { w with keys := pk.keys, checksum := pk.checksum }

def checkPassword (w : SoftWallet c) (password : String) : Except Error Unit :=
  (w.decrypted password).elim (.error w.invalidPassword) fun _ => .ok ()

def setPassword (w : SoftWallet c) (password : String) : Except Error (SoftWallet c) :=
  if !w.isNew && w.isLocked then
    .error ⟨.walletLocked, "The wallet must be unlocked before the password can be set"⟩
  else { w with checksum := c.sha512 password }.lock

/-! ### The file -/

def loadWalletFile (w : SoftWallet c) (files : Files) : Except Error (SoftWallet c × Bool) :=
  (files w.walletFilename).elim (.ok (w, false)) fun text =>
    (c.readWalletData text).elim (.error ⟨.other, ""⟩) fun data =>
      .ok ({ w with wallet := data }, true)

def saveWalletFile (w : SoftWallet c) (disk : Disk) (files : Files) :
    Outcome (SoftWallet c) Unit :=
  let w := w.encryptKeys
  (disk.written (c.toPrettyString w.wallet)).elim
    ⟨w, files, .error ⟨.wallet, "Unable to open file: " ++ w.walletFilename⟩⟩
    fun text => ⟨w, Function.update files w.walletFilename (some text), .ok ()⟩

/-! ### Keys -/

def tryGetPrivateKey (w : SoftWallet c) (id : c.PublicKey) : Option c.PrivateKey := w.keys.find id

def trySignDigest (w : SoftWallet c) (digest : c.Digest) (publicKey : c.PublicKey) :
    Option c.Signature :=
  (w.keys.find publicKey).map fun priv => c.sign priv digest

def listKeys (w : SoftWallet c) : Except Error (OrderedTable c.PublicKey c.PrivateKey) :=
  if w.isLocked then .error ⟨.walletLocked, "Unable to list public keys of a locked wallet"⟩
  else .ok w.keys

def listPublicKeys (w : SoftWallet c) : Except Error (List c.PublicKey) :=
  if w.isLocked then .error ⟨.walletLocked, "Unable to list private keys of a locked wallet"⟩
  else .ok w.keys.keys

/-- `soft_wallet_impl::import_key`: the key in memory. -/
def implImportKey (w : SoftWallet c) (wifKey : String) : Except Error (SoftWallet c × Bool) :=
  (c.privateKey wifKey).elim (.error ⟨.other, ""⟩) fun priv =>
    if (w.keys.find (c.publicKey priv)).isNone then
      .ok ({ w with keys := w.keys.set (c.publicKey priv) priv }, true)
    else .error ⟨.keyExist, "Key already in wallet"⟩

/-- `soft_wallet_impl::remove_key`. -/
def implRemoveKey (w : SoftWallet c) (key : String) : Except Error (SoftWallet c × Bool) :=
  (c.readPublicKey key).elim (.error ⟨.other, ""⟩) fun pub =>
    if (w.keys.find pub).isSome then .ok ({ w with keys := w.keys.erase pub }, true)
    else .error ⟨.keyNonexistent, "Key not in wallet"⟩

/-- The key of the given type that a generator draws. -/
def generate (keyType : String) (seed : c.Seed) : Option c.PrivateKey :=
  let keyType := if keyType.length = 0 then "K1" else keyType
  if keyType = "K1" then some (c.generateK1 seed)
  else if keyType = "R1" then some (c.generateR1 seed)
  else none

/-- `soft_wallet_impl::create_key`. -/
def implCreateKey (w : SoftWallet c) (keyType : String) (seed : c.Seed) :
    Except Error (SoftWallet c × String) :=
  (generate keyType seed).elim
    (.error ⟨.unsupportedKeyType,
      "Key type \"" ++ keyType ++ "\" not supported by software wallet"⟩) fun priv =>
    (w.implImportKey (c.wif priv)).map fun r => (r.1, c.publicKeyText (c.publicKey priv))

/-- A change of the keys in memory that is saved at once. -/
def saved {α : Type} (w : SoftWallet c) (disk : Disk) (files : Files) (locked : String)
    (change : Except Error (SoftWallet c × α)) : Outcome (SoftWallet c) α :=
  if w.isLocked then ⟨w, files, .error ⟨.walletLocked, locked⟩⟩
  else
    match change with
    | .error e => ⟨w, files, .error e⟩
    | .ok (w, answer) =>
      let o := w.saveWalletFile disk files
      ⟨o.object, o.files, o.result.map fun _ => answer⟩

def importKey (w : SoftWallet c) (disk : Disk) (files : Files) (wifKey : String) :
    Outcome (SoftWallet c) Bool :=
  w.saved disk files "Unable to import key on a locked wallet" (w.implImportKey wifKey)

def removeKey (w : SoftWallet c) (disk : Disk) (files : Files) (key : String) :
    Outcome (SoftWallet c) Bool :=
  w.saved disk files "Unable to remove key from a locked wallet" (w.implRemoveKey key)

def createKey (w : SoftWallet c) (disk : Disk) (files : Files) (keyType : String)
    (seed : c.Seed) : Outcome (SoftWallet c) String :=
  w.saved disk files "Unable to create key on a locked wallet" (w.implCreateKey keyType seed)

/-! ### What the methods do -/

variable {w w' : SoftWallet c}

theorem encryptKeys_of_unlocked (hlocked : ¬ w.isLocked) :
    w.encryptKeys = { w with wallet := ⟨c.aesEncrypt w.checksum ⟨w.checksum, w.keys⟩⟩ } :=
  if_neg hlocked

@[simp] theorem encryptKeys_keys (w : SoftWallet c) : w.encryptKeys.keys = w.keys := by
  unfold encryptKeys
  split <;> rfl

@[simp] theorem saveWalletFile_object (w : SoftWallet c) (disk : Disk) (files : Files) :
    (w.saveWalletFile disk files).object = w.encryptKeys := by
  unfold saveWalletFile
  dsimp only
  cases disk.written (c.toPrettyString w.encryptKeys.wallet) <;> rfl

theorem saveWalletFile_takesAll (w : SoftWallet c) (files : Files) :
    w.saveWalletFile .takesAll files = ⟨w.encryptKeys,
      Function.update files w.encryptKeys.walletFilename
        (some (c.toPrettyString w.encryptKeys.wallet)), .ok ()⟩ := rfl

theorem lock_eq_ok : w.lock = .ok w' ↔
    ¬ w.isLocked ∧ { w with
      wallet := ⟨c.aesEncrypt w.checksum ⟨w.checksum, w.keys⟩⟩
      keys := .empty
      checksum := c.noHash } = w' := by
  rw [lock, ite_error_eq_ok]
  refine and_congr_right fun hlocked => ?_
  rw [encryptKeys_of_unlocked hlocked, Except.ok.injEq]

theorem decrypted_eq_some {password : String} {pk : PlainKeys c.Hash c.PublicKey c.PrivateKey} :
    w.decrypted password = some pk ↔ password.length ≠ 0 ∧
      c.aesDecrypt (c.sha512 password) w.wallet.cipherKeys = some pk ∧
      pk.checksum = c.sha512 password := by
  unfold decrypted
  split
  · simp [*]
  · simp [*, Option.filter_eq_some_iff]

theorem unlock_eq_ok {password : String} : w.unlock password = .ok w' ↔
    ∃ pk, w.decrypted password = some pk ∧
      { w with keys := pk.keys, checksum := pk.checksum } = w' := by
  simp only [unlock, elim_error_eq_ok, Except.ok.injEq]

theorem loadWalletFile_eq_ok {files : Files} : w.loadWalletFile files = .ok (w', true) ↔
    ∃ text data, files w.walletFilename = some text ∧ c.readWalletData text = some data ∧
      { w with wallet := data } = w' := by
  unfold loadWalletFile
  cases files w.walletFilename with
  | none => simp
  | some text => simp [elim_error_eq_ok]

theorem implImportKey_eq_ok {wifKey : String} {answer : Bool} :
    w.implImportKey wifKey = .ok (w', answer) ↔ ∃ priv, c.privateKey wifKey = some priv ∧
      w.keys.find (c.publicKey priv) = none ∧
      { w with keys := w.keys.set (c.publicKey priv) priv } = w' ∧ true = answer := by
  simp only [implImportKey, elim_error_eq_ok, ite_ok_eq_ok, Option.isNone_iff_eq_none,
    Prod.mk.injEq]

theorem implRemoveKey_eq_ok {key : String} {answer : Bool} :
    w.implRemoveKey key = .ok (w', answer) ↔ ∃ pub, c.readPublicKey key = some pub ∧
      (w.keys.find pub).isSome ∧ { w with keys := w.keys.erase pub } = w' ∧ true = answer := by
  simp only [implRemoveKey, elim_error_eq_ok, ite_ok_eq_ok, Prod.mk.injEq]

theorem implCreateKey_eq_ok (hwif : ∀ priv, c.privateKey (c.wif priv) = some priv)
    {keyType answer : String} {seed : c.Seed} :
    w.implCreateKey keyType seed = .ok (w', answer) ↔ ∃ priv, generate keyType seed = some priv ∧
      w.keys.find (c.publicKey priv) = none ∧
      { w with keys := w.keys.set (c.publicKey priv) priv } = w' ∧
      c.publicKeyText (c.publicKey priv) = answer := by
  unfold implCreateKey
  rw [elim_error_eq_ok]
  refine exists_congr fun priv => and_congr_right fun _ => ?_
  constructor
  · intro h
    obtain ⟨⟨w'', b⟩, himport, hr⟩ := map_eq_ok.mp h
    obtain ⟨priv', hpriv, hfind, rfl, -⟩ := implImportKey_eq_ok.mp himport
    rw [hwif] at hpriv
    cases hpriv
    cases hr
    exact ⟨hfind, rfl, rfl⟩
  · rintro ⟨hfind, rfl, rfl⟩
    rw [implImportKey_eq_ok.mpr ⟨priv, hwif priv, hfind, rfl, rfl⟩]
    rfl

/-- A change is refused and nothing happens, or what is left of it is the file. -/
theorem saved_cases {α : Type} (w : SoftWallet c) (disk : Disk) (files : Files) (locked : String)
    (change : Except Error (SoftWallet c × α)) :
    (w.isLocked ∨ ∀ r, change ≠ .ok r) ∧
        (∃ e, w.saved disk files locked change = ⟨w, files, .error e⟩) ∨
      ¬ w.isLocked ∧ ∃ w' answer, change = .ok (w', answer) ∧
        w.saved disk files locked change =
          let o := w'.saveWalletFile disk files
          ⟨o.object, o.files, o.result.map fun _ => answer⟩ := by
  unfold saved
  split
  · next hlocked => exact .inl ⟨.inl hlocked, _, rfl⟩
  · next hlocked =>
      cases change with
      | error e => exact .inl ⟨.inr (by intro r h; cases h), e, rfl⟩
      | ok r => exact .inr ⟨hlocked, r.1, r.2, rfl, rfl⟩

end SoftWallet

end Xidata.Wallet
