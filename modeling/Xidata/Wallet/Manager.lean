import Mathlib.Data.Finset.Basic
import Xidata.Wallet.FileErrors

/-!
The wallet manager: wallets by name, one deadline for all of them, and a method for every
request.  A call is made at a time of the clock, which it reads once; what it draws at random
and what becomes of its writes is part of it.  Wallets other than the ones with a file are
devices, of which no more is known than their interface says.
-/

namespace Xidata.Wallet

/-- The implementations of `wallet_api` on a device.  Locking an unlocked one locks it, and an
`unlock` that throws does not unlock it. -/
structure Devices (c : Primitives) where
  State : Type
  isLocked : State → Bool
  lock : State → Except Error State
  unlock : State → String → State × Except Error Unit
  checkPassword : State → String → State × Except Error Unit
  listKeys : State → State × Except Error (OrderedTable c.PublicKey c.PrivateKey)
  listPublicKeys : State → State × Except Error (Finset c.PublicKey)
  importKey : State → String → State × Except Error Bool
  removeKey : State → String → State × Except Error Bool
  createKey : State → String → State × Except Error String
  trySignDigest : State → c.Digest → c.PublicKey → State × Except Error (Option c.Signature)
  lock_locks : ∀ s, ¬ isLocked s → ∃ s', lock s = .ok s' ∧ isLocked s'
  unlock_throws : ∀ s password e, isLocked s → (unlock s password).2 = .error e →
    isLocked (unlock s password).1

inductive WalletApi (c : Primitives) (d : Devices c)
  | soft (w : SoftWallet c)
  | device (s : d.State)

variable {c : Primitives} {d : Devices c}

namespace WalletApi

def isLocked : WalletApi c d → Bool
  | soft w => w.isLocked
  | device s => d.isLocked s

def lock : WalletApi c d → Except Error (WalletApi c d)
  | soft w => w.lock.map soft
  | device s => (d.lock s).map device

def unlock (password : String) : WalletApi c d → WalletApi c d × Except Error Unit
  | soft w => (soft ((w.unlock password).toOption.getD w), (w.unlock password).map fun _ => ())
  | device s => (d.unlock s password).map device id

def checkPassword (password : String) : WalletApi c d → WalletApi c d × Except Error Unit
  | soft w => (soft w, w.checkPassword password)
  | device s => (d.checkPassword s password).map device id

def listKeys : WalletApi c d →
    WalletApi c d × Except Error (OrderedTable c.PublicKey c.PrivateKey)
  | soft w => (soft w, w.listKeys)
  | device s => (d.listKeys s).map device id

def listPublicKeys : WalletApi c d → WalletApi c d × Except Error (Finset c.PublicKey)
  | soft w => (soft w, w.listPublicKeys.map List.toFinset)
  | device s => (d.listPublicKeys s).map device id

def trySignDigest (digest : c.Digest) (publicKey : c.PublicKey) :
    WalletApi c d → WalletApi c d × Except Error (Option c.Signature)
  | soft w => (soft w, .ok (w.trySignDigest digest publicKey))
  | device s => (d.trySignDigest s digest publicKey).map device id

/-- An outcome of a wallet with a file. -/
def ofSoft {α : Type} (o : Outcome (SoftWallet c) α) : Outcome (WalletApi c d) α :=
  ⟨soft o.object, o.files, o.result⟩

/-- What a device leaves behind: it has no file. -/
def ofDevice {α : Type} (files : Files) (r : d.State × Except Error α) :
    Outcome (WalletApi c d) α :=
  ⟨device r.1, files, r.2⟩

def importKey (disk : Disk) (files : Files) (wifKey : String) :
    WalletApi c d → Outcome (WalletApi c d) Bool
  | soft w => ofSoft (w.importKey disk files wifKey)
  | device s => ofDevice files (d.importKey s wifKey)

def removeKey (disk : Disk) (files : Files) (key : String) :
    WalletApi c d → Outcome (WalletApi c d) Bool
  | soft w => ofSoft (w.removeKey disk files key)
  | device s => ofDevice files (d.removeKey s key)

def createKey (disk : Disk) (files : Files) (keyType : String) (seed : c.Seed) :
    WalletApi c d → Outcome (WalletApi c d) String
  | soft w => ofSoft (w.createKey disk files keyType seed)
  | device s => ofDevice files (d.createKey s keyType)

end WalletApi

/-- The wallets by name. -/
abbrev Wallets (c : Primitives) (d : Devices c) := OrderedTable String (WalletApi c d)

structure WalletManager (c : Primitives) (d : Devices c) where
  wallets : Wallets c d
  /-- In seconds. -/
  timeout : ℤ
  timeoutTime : ℤ
  dir : String
  files : Files

structure SignedTransaction (c : Primitives) where
  transaction : c.Transaction
  signatures : List c.Signature

inductive Reply (c : Primitives)
  | done
  | password (password : String)
  | wallets (names : List String)
  | keys (keys : OrderedTable c.PublicKey c.PrivateKey)
  | publicKeys (keys : Finset c.PublicKey)
  | publicKey (key : String)
  | signature (signature : c.Signature)
  | transaction (transaction : SignedTransaction c)

/-- What a call leaves behind, and the names of the wallets with whose keys it works. -/
structure Answer (c : Primitives) (d : Devices c) where
  manager : WalletManager c d
  reply : Except Error (Reply c)
  keysOf : List String

/-! ### Loops over the wallets -/

/-- A loop over the wallets that passes over the locked ones; its body says whether it goes
on. -/
def forUnlocked {β : Type}
    (body : String → WalletApi c d → β → WalletApi c d × Except Error (β × Bool)) :
    List (String × WalletApi c d) → Wallets c d → β → Wallets c d × Except Error β
  | [], wallets, b => (wallets, .ok b)
  | (name, w) :: rest, wallets, b =>
    if w.isLocked then forUnlocked body rest wallets b
    else
      match body name w b with
      | (w, .error e) => (wallets.set name w, .error e)
      | (w, .ok (b, true)) => forUnlocked body rest (wallets.set name w) b
      | (w, .ok (b, false)) => (wallets.set name w, .ok b)

def lockBody (_ : String) (w : WalletApi c d) (_ : Unit) :
    WalletApi c d × Except Error (Unit × Bool) :=
  match w.lock with
  | .ok w => (w, .ok ((), true))
  | .error e => (w, .error e)

/-- The keys so far, and whether every wallet so far is locked. -/
def publicKeysBody (_ : String) (w : WalletApi c d) (b : Finset c.PublicKey × Bool) :
    WalletApi c d × Except Error ((Finset c.PublicKey × Bool) × Bool) :=
  match w.listPublicKeys with
  | (w, .ok keys) => (w, .ok ((b.1 ∪ keys, b.2 && w.isLocked), true))
  | (w, .error e) => (w, .error e)

/-- The signature by the first wallet that has the key. -/
def signBody (digest : c.Digest) (publicKey : c.PublicKey) (name : String) (w : WalletApi c d)
    (_ : Option (String × c.Signature)) :
    WalletApi c d × Except Error (Option (String × c.Signature) × Bool) :=
  match w.trySignDigest digest publicKey with
  | (w, .ok (some signature)) => (w, .ok (some (name, signature), false))
  | (w, .ok none) => (w, .ok (none, true))
  | (w, .error e) => (w, .error e)

def trySign (digest : c.Digest) (publicKey : c.PublicKey) (wallets : Wallets c d) :
    Wallets c d × Except Error (Option (String × c.Signature)) :=
  forUnlocked (signBody digest publicKey) wallets.rows wallets none

def missingPubKey (publicKey : c.PublicKey) : Error :=
  ⟨.walletMissingPubKey,
    "Public key not found in unlocked wallets " ++ c.publicKeyText publicKey⟩

/-- A signature for each key, with the names of the wallets that have signed. -/
def signEach (digest : c.Digest) :
    List c.PublicKey → Wallets c d → List (String × c.Signature) →
      Wallets c d × List (String × c.Signature) × Except Error Unit
  | [], wallets, signed => (wallets, signed, .ok ())
  | publicKey :: rest, wallets, signed =>
    match trySign digest publicKey wallets with
    | (wallets, .error e) => (wallets, signed, .error e)
    | (wallets, .ok none) => (wallets, signed, .error (missingPubKey publicKey))
    | (wallets, .ok (some s)) => signEach digest rest wallets (signed ++ [s])

/-! What a loop does to one wallet, and to what it computes. -/

section Loop

variable {β : Type}
  {body : String → WalletApi c d → β → WalletApi c d × Except Error (β × Bool)}
  {rows : List (String × WalletApi c d)} {wallets : Wallets c d} {b : β}

/-- A loop leaves a locked wallet as it is. -/
theorem find_forUnlocked {name : String} (hlocked : ∀ w, (name, w) ∈ rows → w.isLocked) :
    (forUnlocked body rows wallets b).1.find name = wallets.find name := by
  induction rows generalizing wallets b with
  | nil => rfl
  | cons row rows ih =>
      obtain ⟨name', w⟩ := row
      have hrest : ∀ w, (name, w) ∈ rows → w.isLocked := fun w hw =>
        hlocked w (List.mem_cons_of_mem _ hw)
      unfold forUnlocked
      split
      · exact ih hrest
      · next hunlocked =>
          have hne : name ≠ name' := by
            rintro rfl
            exact hunlocked (hlocked w List.mem_cons_self)
          split
          · exact OrderedTable.find_set_of_ne _ hne _
          · exact (ih hrest).trans (OrderedTable.find_set_of_ne _ hne _)
          · exact OrderedTable.find_set_of_ne _ hne _

/-- What the body keeps of its result for every unlocked wallet, the loop keeps. -/
theorem forUnlocked_result {I : β → Prop}
    (hbody : ∀ name w b b' go, (name, w) ∈ rows → ¬ w.isLocked → I b →
      (body name w b).2 = .ok (b', go) → I b') (hb : I b) {b' : β}
    (h : (forUnlocked body rows wallets b).2 = .ok b') : I b' := by
  induction rows generalizing wallets b with
  | nil => exact Except.ok.inj h ▸ hb
  | cons row rows ih =>
      obtain ⟨name, w⟩ := row
      have hrest {wallets : Wallets c d} {b : β} (hb : I b)
          (h : (forUnlocked body rows wallets b).2 = .ok b') : I b' :=
        ih (fun name w b b' go hw => hbody name w b b' go (List.mem_cons_of_mem _ hw)) hb h
      unfold forUnlocked at h
      split at h
      · exact hrest hb h
      · next hunlocked =>
          have hstep := hbody name w b
          split at h
          · cases h
          · next hgo => exact hrest (hstep _ _ List.mem_cons_self hunlocked hb (by rw [hgo])) h
          · next hstop =>
              exact Except.ok.inj h ▸ hstep _ _ List.mem_cons_self hunlocked hb (by rw [hstop])

/-- What the body keeps of every unlocked wallet, the loop keeps of all. -/
theorem forUnlocked_wallets {I : String → WalletApi c d → Prop}
    (hbody : ∀ name w b, ¬ w.isLocked → I name w → I name (body name w b).1)
    (hrows : ∀ row ∈ rows, I row.1 row.2)
    (hwallets : ∀ name w, wallets.find name = some w → I name w) {name : String}
    {w : WalletApi c d} (h : (forUnlocked body rows wallets b).1.find name = some w) :
    I name w := by
  induction rows generalizing wallets b with
  | nil => exact hwallets name w h
  | cons row rows ih =>
      obtain ⟨name', w'⟩ := row
      have hrest := fun row hrow => hrows row (List.mem_cons_of_mem _ hrow)
      unfold forUnlocked at h
      split at h
      · exact ih hrest hwallets h
      · next hunlocked =>
          have hset : ∀ name w, (wallets.set name' (body name' w' b).1).find name = some w →
              I name w := by
            intro name w hw
            rw [OrderedTable.find_set] at hw
            split at hw
            · next heq =>
                cases hw
                exact heq ▸ hbody name' w' b hunlocked (hrows _ List.mem_cons_self)
            · exact hwallets name w hw
          split at h
          · next hbody' => exact hset name w (by rw [hbody']; exact h)
          · next hbody' => exact ih hrest (by rw [hbody'] at hset; exact hset) h
          · next hbody' => exact hset name w (by rw [hbody']; exact h)

end Loop

namespace WalletManager

/-! ### The deadline -/

/-- `timepoint_t::max()`, no deadline. -/
def timepointMax : ℤ := 2 ^ 63 - 1

/-- The system clock counts nanoseconds. -/
def second : ℤ := 1000000000

/-- The manager of a new process; `timeout` is `seconds::max()`. -/
def start (files : Files) : WalletManager c d :=
  { wallets := .empty, timeout := 2 ^ 63 - 1, timeoutTime := timepointMax, dir := ".", files }

def setTimeout (m : WalletManager c d) (now t : ℤ) : Answer c d :=
  let timeoutTime := now + t * second
  ⟨{ m with timeout := t, timeoutTime },
    if timeoutTime ≥ now ∧ timeoutTime > 0 then .ok .done
    else .error ⟨.invalidLockTimeout, "Overflow on timeout_time, specified " ++ toString t ++
      ", now " ++ toString now ++ ", timeout_time " ++ toString timeoutTime⟩, []⟩

def lockAll (m : WalletManager c d) : WalletManager c d × Except Error Unit :=
  let r := forUnlocked lockBody m.wallets.rows m.wallets ()
  ({ m with wallets := r.1 }, r.2)

def checkTimeout (m : WalletManager c d) (now : ℤ) : WalletManager c d × Except Error Unit :=
  if m.timeoutTime = timepointMax then (m, .ok ())
  else if now ≥ m.timeoutTime then
    match m.lockAll with
    | (m, .ok ()) => ({ m with timeoutTime := now + m.timeout * second }, .ok ())
    | (m, .error e) => (m, .error e)
  else ({ m with timeoutTime := now + m.timeout * second }, .ok ())

/-- A method that checks the deadline first. -/
def checked (m : WalletManager c d) (now : ℤ) (method : WalletManager c d → Answer c d) :
    Answer c d :=
  match m.checkTimeout now with
  | (m, .ok ()) => method m
  | (m, .error e) => ⟨m, .error e, []⟩

/-! ### Wallet files -/

/-- Such a name has no separator, so that it is the last part of itself as a path. -/
def validFilename (name : String) : Bool :=
  name.toList ≠ [] && name.toList.all fun ch => ch.isAlphanum || ch ∈ "._-".toList

/-- A path with its separator at the end. -/
def slashed (dir : String) : String :=
  if dir.toList = [] ∨ dir.toList.getLast? = some '/' then dir else dir ++ "/"

def walletFilename (dir name : String) : String := slashed dir ++ (name ++ ".wallet")

def genPassword (c : Primitives) (seed : c.Seed) : String := "PW" ++ c.wif (c.generateK1 seed)

def invalidFilename (name : String) : Error :=
  ⟨.wallet, "Invalid filename, path not allowed in wallet name " ++ name⟩

/-- A new wallet, unlocked, before it is saved. -/
def newWallet (path password : String) : Except Error (SoftWallet c) := do
  let w ← (SoftWallet.new "" : SoftWallet c).setPassword password
  let w := { w with walletFilename := path }
  let w ← w.unlock password
  let w ← w.lock
  w.unlock password

def createFile (m : WalletManager c d) (name : String) (seed : c.Seed) (disk : Disk) :
    Answer c d :=
  let path := walletFilename m.dir name
  let password := genPassword c seed
  match newWallet path password with
  | .error e => ⟨m, .error e, []⟩
  | .ok w =>
    match w.saveWalletFile disk m.files with
    | ⟨_, files, .error e⟩ => ⟨{ m with files }, .error e, []⟩
    | ⟨w, files, .ok ()⟩ =>
      ⟨{ m with wallets := m.wallets.set name (.soft w), files }, .ok (.password password), []⟩

def create (m : WalletManager c d) (now : ℤ) (name : String) (seed : c.Seed) (disk : Disk) :
    Answer c d :=
  m.checked now fun m =>
    if !validFilename name then ⟨m, .error (invalidFilename name), []⟩
    else if (m.files (walletFilename m.dir name)).isSome then
      ⟨m, .error ⟨.walletExist, "Wallet with name: '" ++ name ++ "' already exists at " ++
        walletFilename m.dir name⟩, []⟩
    else m.createFile name seed disk

def openFile (m : WalletManager c d) (name : String) : Answer c d :=
  let path := walletFilename m.dir name
  match (SoftWallet.new path : SoftWallet c).loadWalletFile m.files with
  | .error e => ⟨m, .error e, []⟩
  | .ok (_, false) => ⟨m, .error ⟨.walletNonexistent, "Unable to open file: " ++ path⟩, []⟩
  | .ok (w, true) => ⟨{ m with wallets := m.wallets.set name (.soft w) }, .ok .done, []⟩

def open' (m : WalletManager c d) (now : ℤ) (name : String) : Answer c d :=
  m.checked now fun m =>
    if !validFilename name then ⟨m, .error (invalidFilename name), []⟩ else m.openFile name

/-! ### The methods -/

def listWallets (m : WalletManager c d) (now : ℤ) : Answer c d :=
  m.checked now fun m =>
    ⟨m, .ok (.wallets (m.wallets.rows.map fun i =>
      if i.2.isLocked then i.1 else i.1 ++ " *")), []⟩

def walletNotFound (name : String) : Error :=
  ⟨.walletNonexistent, "Wallet not found: " ++ name⟩

/-- A method on a wallet that has to be unlocked. -/
def onUnlocked (m : WalletManager c d) (name : String)
    (method : WalletApi c d → Files → Outcome (WalletApi c d) (Reply c)) : Answer c d :=
  (m.wallets.find name).elim ⟨m, .error (walletNotFound name), []⟩ fun w =>
    if w.isLocked then ⟨m, .error ⟨.walletLocked, "Wallet is locked: " ++ name⟩, []⟩
    else
      let o := method w m.files
      ⟨{ m with wallets := m.wallets.set name o.object, files := o.files }, o.result, [name]⟩

/-- The rest of a method after the password has been checked. -/
def withPassword (password : String)
    (method : WalletApi c d → Files → Outcome (WalletApi c d) (Reply c)) (w : WalletApi c d)
    (files : Files) : Outcome (WalletApi c d) (Reply c) :=
  match w.checkPassword password with
  | (w, .error e) => ⟨w, files, .error e⟩
  | (w, .ok ()) => method w files

def listKeys (m : WalletManager c d) (now : ℤ) (name password : String) : Answer c d :=
  m.checked now fun m => m.onUnlocked name <| withPassword password fun w files =>
    ⟨w.listKeys.1, files, w.listKeys.2.map .keys⟩

def getPublicKeys (m : WalletManager c d) (now : ℤ) : Answer c d :=
  m.checked now fun m =>
    if m.wallets.rows.isEmpty then
      ⟨m, .error ⟨.walletNotAvailable, "You don't have any wallet!"⟩, []⟩
    else
      let r := forUnlocked publicKeysBody m.wallets.rows m.wallets (∅, true)
      let unlocked := (m.wallets.rows.filter fun i => !i.2.isLocked).map Prod.fst
      ⟨{ m with wallets := r.1 }, r.2.bind fun b =>
        if b.2 then .error ⟨.walletLocked, "You don't have any unlocked wallet!"⟩
        else .ok (.publicKeys b.1), unlocked⟩

def lock (m : WalletManager c d) (now : ℤ) (name : String) : Answer c d :=
  m.checked now fun m =>
    (m.wallets.find name).elim ⟨m, .error (walletNotFound name), []⟩ fun w =>
      if w.isLocked then ⟨m, .ok .done, []⟩
      else
        match w.lock with
        | .error e => ⟨m, .error e, []⟩
        | .ok w => ⟨{ m with wallets := m.wallets.set name w }, .ok .done, []⟩

/-- `unlock` of a wallet that is there. -/
def unlockFound (m : WalletManager c d) (name password : String) : Answer c d :=
  (m.wallets.find name).elim ⟨m, .error (walletNotFound name), []⟩ fun w =>
    if !w.isLocked then
      ⟨m, .error ⟨.walletUnlocked, "Wallet is already unlocked: " ++ name⟩, []⟩
    else
      let r := w.unlock password
      ⟨{ m with wallets := m.wallets.set name r.1 }, r.2.map fun _ => .done, []⟩

def unlock (m : WalletManager c d) (now : ℤ) (name password : String) : Answer c d :=
  m.checked now fun m =>
    if (m.wallets.find name).isNone then
      match m.open' now name with
      | ⟨m, .error e, _⟩ => ⟨m, .error e, []⟩
      | ⟨m, .ok _, _⟩ => m.unlockFound name password
    else m.unlockFound name password

def importKey (m : WalletManager c d) (now : ℤ) (name wifKey : String) (disk : Disk) :
    Answer c d :=
  m.checked now fun m => m.onUnlocked name fun w files =>
    let o := w.importKey disk files wifKey
    ⟨o.object, o.files, o.result.map fun _ => .done⟩

def removeKey (m : WalletManager c d) (now : ℤ) (name password key : String) (disk : Disk) :
    Answer c d :=
  m.checked now fun m => m.onUnlocked name <| withPassword password fun w files =>
    let o := w.removeKey disk files key
    ⟨o.object, o.files, o.result.map fun _ => .done⟩

/-- `boost::to_upper_copy`. -/
def toUpper (text : String) : String := String.ofList (text.toList.map Char.toUpper)

def createKey (m : WalletManager c d) (now : ℤ) (name keyType : String) (seed : c.Seed)
    (disk : Disk) : Answer c d :=
  m.checked now fun m => m.onUnlocked name fun w files =>
    let o := w.createKey disk files (toUpper keyType) seed
    ⟨o.object, o.files, o.result.map .publicKey⟩

def signTransaction (m : WalletManager c d) (now : ℤ) (txn : SignedTransaction c)
    (keys : List c.PublicKey) (id : c.ChainId) : Answer c d :=
  m.checked now fun m =>
    let r := signEach (c.sigDigest txn.transaction id) keys m.wallets []
    ⟨{ m with wallets := r.1 }, r.2.2.map fun _ =>
      .transaction { txn with signatures := txn.signatures ++ r.2.1.map Prod.snd },
      r.2.1.map Prod.fst⟩

def signDigest (m : WalletManager c d) (now : ℤ) (digest : c.Digest) (key : c.PublicKey) :
    Answer c d :=
  m.checked now fun m =>
    match trySign digest key m.wallets with
    | (wallets, .error e) => ⟨{ m with wallets }, .error e, []⟩
    | (wallets, .ok none) => ⟨{ m with wallets }, .error (missingPubKey key), []⟩
    | (wallets, .ok (some s)) => ⟨{ m with wallets }, .ok (.signature s.2), [s.1]⟩

def ownAndUseWallet (m : WalletManager c d) (name : String) (wallet : WalletApi c d) :
    Answer c d :=
  if (m.wallets.find name).isSome then
    ⟨m, .error ⟨.other, "tried to use wallet name the already existed"⟩, []⟩
  else ⟨{ m with wallets := m.wallets.set name wallet }, .ok .done, []⟩

/-- What becomes of the lock file in a new directory. -/
def initializeLock (dir : String) (opens locks : Bool) : Except Error (Reply c) :=
  if !opens then
    .error ⟨.wallet, "Failed to open wallet lock file at " ++ slashed dir ++ "wallet.lock"⟩
  else if !locks then
    .error ⟨.wallet, "Failed to lock access to wallet directory; is another keosd running?"⟩
  else .ok .done

def setDir (m : WalletManager c d) (dir : String) (opens locks : Bool) : Answer c d :=
  ⟨{ m with dir }, initializeLock dir opens locks, []⟩

end WalletManager

/-- The public methods with their arguments. -/
inductive Call (c : Primitives) (d : Devices c)
  | setDir (dir : String) (opens locks : Bool)
  | setTimeout (t : ℤ)
  | signTransaction (txn : SignedTransaction c) (keys : List c.PublicKey) (id : c.ChainId)
  | signDigest (digest : c.Digest) (key : c.PublicKey)
  | create (name : String) (seed : c.Seed) (disk : Disk)
  | open (name : String)
  | listWallets
  | listKeys (name password : String)
  | getPublicKeys
  | lockAll
  | lock (name : String)
  | unlock (name password : String)
  | importKey (name wifKey : String) (disk : Disk)
  | removeKey (name password key : String) (disk : Disk)
  | createKey (name keyType : String) (seed : c.Seed) (disk : Disk)
  | ownAndUseWallet (name : String) (wallet : WalletApi c d)

def WalletManager.call (m : WalletManager c d) (now : ℤ) : Call c d → Answer c d
  | .setDir dir opens locks => m.setDir dir opens locks
  | .setTimeout t => m.setTimeout now t
  | .signTransaction txn keys id => m.signTransaction now txn keys id
  | .signDigest digest key => m.signDigest now digest key
  | .create name seed disk => m.create now name seed disk
  | .open name => m.open' now name
  | .listWallets => m.listWallets now
  | .listKeys name password => m.listKeys now name password
  | .getPublicKeys => m.getPublicKeys now
  | .lockAll => ⟨m.lockAll.1, m.lockAll.2.map fun _ => .done, []⟩
  | .lock name => m.lock now name
  | .unlock name password => m.unlock now name password
  | .importKey name wifKey disk => m.importKey now name wifKey disk
  | .removeKey name password key disk => m.removeKey now name password key disk
  | .createKey name keyType seed disk => m.createKey now name keyType seed disk
  | .ownAndUseWallet name wallet => m.ownAndUseWallet name wallet

end Xidata.Wallet
