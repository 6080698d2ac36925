import Xidata.Wallet.Timeout

/-!
Wallet files follow the wallets.  A book notes, from the calls and their answers only, the
password and the keys of every wallet that has been created.  Memory, the cipher text in memory
and the file agree with it in every state of a run without file errors: a wallet opens with its
password, to the keys in the book, and with no other.
-/

namespace Xidata.Wallet

open Rollback

variable {c : Primitives} {d : Devices c}

/-- Encryption is idealised: a cipher text opens with its own hash only.  No password has the
hash of a locked wallet. -/
structure Primitives.Ideal (c : Primitives) : Prop where
  json : ∀ data, c.readWalletData (c.toPrettyString data) = some data
  aes : ∀ key key' pk, c.aesDecrypt key' (c.aesEncrypt key pk) = if key = key' then some pk else none
  wif : ∀ priv, c.privateKey (c.wif priv) = some priv
  sha512 : ∀ text, c.sha512 text ≠ c.noHash

/-! ### The book -/

structure Entry (c : Primitives) where
  password : String
  keys : OrderedTable c.PublicKey c.PrivateKey

abbrev Book (c : Primitives) := String → Option (Entry c)

def Entry.change (e : Entry c) (change : Change c) : Entry c :=
  { e with keys := (change.asksFor e.keys).getD e.keys }

/-- The wallet whose keys a call changes. -/
def Call.change : Call c d → Option (String × Change c)
  | .importKey name wifKey _ => some (name, .importKey wifKey)
  | .removeKey name _ key _ => some (name, .removeKey key)
  | .createKey name keyType seed _ => some (name, .createKey (WalletManager.toUpper keyType) seed)
  | _ => none

/-- A call that has succeeded is noted. -/
def Book.note (book : Book c) : Call c d → Except Error (Reply c) → Book c
  | .create name _ _, .ok (.password password) =>
    Function.update book name (some ⟨password, .empty⟩)
  | call, .ok _ => call.change.elim book fun ch =>
    Function.update book ch.1 ((book ch.1).map fun e => e.change ch.2)
  | _, .error _ => book

@[simp] theorem Book.note_error (book : Book c) (call : Call c d) (e : Error) :
    book.note call (.error e) = book := by
  cases call <;> rfl

/-- A call that is not about an entry. -/
theorem Book.note_of_reads (book : Book c) {call : Call c d} (hchange : call.change = none)
    (hcreate : ∀ name seed disk, call ≠ .create name seed disk)
    (reply : Except Error (Reply c)) : book.note call reply = book := by
  cases reply with
  | error e => exact book.note_error call e
  | ok reply =>
      cases call with
      | create name seed disk => exact absurd rfl (hcreate name seed disk)
      | importKey | removeKey | createKey => cases hchange
      | _ => rfl

/-- The cipher text that an entry stands for. -/
def Entry.data (e : Entry c) : WalletData :=
  ⟨c.aesEncrypt (c.sha512 e.password) ⟨c.sha512 e.password, e.keys⟩⟩

/-- A wallet with a file, in memory: a locked one has no keys.  With an entry its cipher text
is the entry's, and unlocked it has the keys of the entry. -/
structure SoftWallet.Agrees (w : SoftWallet c) (path : String) (entry : Option (Entry c)) :
    Prop where
  walletFilename : w.walletFilename = path
  locked : w.isLocked → w.keys = .empty
  wallet : ∀ e ∈ entry, w.wallet = e.data
  unlocked : ∀ e ∈ entry, ¬ w.isLocked → w.checksum = c.sha512 e.password ∧ w.keys = e.keys

def WalletApi.Agrees (path : String) (entry : Option (Entry c)) : WalletApi c d → Prop
  | .soft w => w.Agrees path entry
  | .device _ => entry = none

/-- The wallets and the files agree with the book. -/
structure WalletManager.Agrees (m : WalletManager c d) (book : Book c) : Prop where
  wallets : ∀ name w, m.wallets.find name = some w →
    w.Agrees (walletFilename m.dir name) (book name)
  files : ∀ name, ∀ e ∈ book name,
    m.files (walletFilename m.dir name) = some (c.toPrettyString e.data)
  names : ∀ name, ∀ e ∈ book name, validFilename name ∧ e.password.length ≠ 0

theorem walletFilename_inj {dir name name' : String}
    (h : WalletManager.walletFilename dir name = WalletManager.walletFilename dir name') :
    name = name' :=
  (String.append_left_inj ".wallet").mp ((String.append_right_inj _).mp h)

/-! ### One wallet -/

namespace SoftWallet.Agrees

variable {w w' : SoftWallet c} {path : String} {entry : Option (Entry c)}

theorem lock (h : w.Agrees path entry) (hlock : w.lock = .ok w') : w'.Agrees path entry := by
  obtain ⟨hunlocked, rfl⟩ := lock_eq_ok.mp hlock
  refine ⟨h.walletFilename, fun _ => rfl, fun e he => ?_, fun e he hnot => ?_⟩
  · obtain ⟨hchecksum, hkeys⟩ := h.unlocked e he hunlocked
    dsimp only
    rw [hchecksum, hkeys, Entry.data]
  · exact absurd (decide_eq_true rfl) hnot

theorem unlock (hc : c.Ideal) (h : w.Agrees path entry) {password : String}
    (hunlock : w.unlock password = .ok w') : w'.Agrees path entry ∧ ¬ w'.isLocked := by
  obtain ⟨pk, hpk, rfl⟩ := unlock_eq_ok.mp hunlock
  obtain ⟨-, hdecrypt, hchecksum⟩ := decrypted_eq_some.mp hpk
  have hunlocked : ¬ ({ w with keys := pk.keys, checksum := pk.checksum } : SoftWallet c).isLocked :=
    fun hlocked => hc.sha512 password (hchecksum ▸ of_decide_eq_true hlocked)
  refine ⟨⟨h.walletFilename, fun hlocked => absurd hlocked hunlocked, h.wallet, fun e he _ => ?_⟩,
    hunlocked⟩
  rw [h.wallet e he, Entry.data, hc.aes] at hdecrypt
  split at hdecrypt
  · cases hdecrypt
    exact ⟨rfl, rfl⟩
  · cases hdecrypt

/-- A wallet opens with its password and with no other. -/
theorem unlock_iff (hc : c.Ideal) {e : Entry c} (h : w.Agrees path (some e)) {password : String} :
    (∃ w', w.unlock password = .ok w') ↔
      password.length ≠ 0 ∧ c.sha512 password = c.sha512 e.password := by
  have haes := hc.aes (c.sha512 e.password) (c.sha512 password) ⟨c.sha512 e.password, e.keys⟩
  constructor
  · rintro ⟨w', hunlock⟩
    obtain ⟨pk, hpk, -⟩ := unlock_eq_ok.mp hunlock
    obtain ⟨hlength, hdecrypt, -⟩ := decrypted_eq_some.mp hpk
    rw [h.wallet e rfl, Entry.data, haes] at hdecrypt
    split at hdecrypt
    · next heq => exact ⟨hlength, heq.symm⟩
    · cases hdecrypt
  · rintro ⟨hlength, hhash⟩
    have hdecrypt := decrypted_eq_some.mpr ⟨hlength, (by
      rw [h.wallet e rfl, Entry.data, haes, if_pos hhash.symm]), hhash.symm⟩
    exact ⟨_, unlock_eq_ok.mpr ⟨_, hdecrypt, rfl⟩⟩

/-- The cipher text of an unlocked wallet is up to date. -/
theorem encryptKeys_eq {e : Entry c} (h : w.Agrees path (some e)) : w.encryptKeys = w := by
  unfold encryptKeys
  split
  · rfl
  · next hunlocked =>
      obtain ⟨hchecksum, hkeys⟩ := h.unlocked e rfl hunlocked
      rw [hchecksum, hkeys]
      have hwallet : w.wallet = ⟨c.aesEncrypt (c.sha512 e.password)
        ⟨c.sha512 e.password, e.keys⟩⟩ := h.wallet e rfl
      rw [← hwallet, ← hchecksum, ← hkeys]

/-- A change that is made is in memory and in the file. -/
theorem change (hc : c.Ideal) (h : w.Agrees path entry) (change : Change c) (files : Files) :
    (∃ e, change.run w .takesAll files = ⟨w, files, .error e⟩) ∨
      ∃ w' file, change.run w .takesAll files =
          ⟨w', Function.update files path (some file), .ok ()⟩ ∧
        w'.Agrees path (entry.map fun e => e.change change) ∧
        ∀ e ∈ entry, file = c.toPrettyString (e.change change).data := by
  obtain ⟨-, e, hrun⟩ | ⟨hlocked, w', himpl, hrun⟩ := change.run_cases w .takesAll files
  · exact .inl ⟨e, hrun⟩
  · obtain ⟨pub, -, -, keys, hkeys, rfl⟩ := (Change.impl_eq_ok hc.wif).mp himpl
    have hsave : ({ w with keys } : SoftWallet c).encryptKeys =
        { w with keys, wallet := ⟨c.aesEncrypt w.checksum ⟨w.checksum, keys⟩⟩ } :=
      if_neg hlocked
    -- the entry after the change, and what the wallet encrypts
    have hentry : ∀ e ∈ entry, w.checksum = c.sha512 e.password ∧
        e.change change = { e with keys } := fun e he => by
      obtain ⟨hchecksum, hsame⟩ := h.unlocked e he hlocked
      rw [Entry.change, ← hsame, hkeys]
      exact ⟨hchecksum, rfl⟩
    have hdata : ∀ e ∈ entry,
        (e.change change).data = ⟨c.aesEncrypt w.checksum ⟨w.checksum, keys⟩⟩ := fun e he => by
      obtain ⟨hchecksum, hchange⟩ := hentry e he
      rw [hchange, hchecksum, Entry.data]
    have hencrypted : ∀ e ∈ entry.map fun e => e.change change, w.checksum = c.sha512 e.password ∧
        keys = e.keys ∧ e.data = ⟨c.aesEncrypt w.checksum ⟨w.checksum, keys⟩⟩ := fun e' he' => by
      obtain ⟨e, he, rfl⟩ := Option.map_eq_some_iff.mp he'
      obtain ⟨hchecksum, hchange⟩ := hentry e he
      exact ⟨hchecksum, (congrArg Entry.keys hchange).symm, hdata e he⟩
    refine .inr ⟨{ w with keys, wallet := ⟨c.aesEncrypt w.checksum ⟨w.checksum, keys⟩⟩ },
      c.toPrettyString ⟨c.aesEncrypt w.checksum ⟨w.checksum, keys⟩⟩, hrun.trans ?_,
      ⟨h.walletFilename, fun hw => absurd hw hlocked, fun e he => (hencrypted e he).2.2.symm,
        fun e he _ => ⟨(hencrypted e he).1, (hencrypted e he).2.1⟩⟩,
      fun e he => congrArg c.toPrettyString (hdata e he).symm⟩
    rw [saveWalletFile_takesAll, hsave, ← h.walletFilename]

end SoftWallet.Agrees

/-! ### The manager -/

namespace WalletApi.Agrees

variable {w w' : WalletApi c d} {path : String} {entry : Option (Entry c)}

theorem lock (h : w.Agrees path entry) (hlock : w.lock = .ok w') : w'.Agrees path entry := by
  cases w with
  | soft w =>
      have hmap : soft <$> w.lock = .ok w' := hlock
      obtain ⟨w₁, hw₁, rfl⟩ := map_eq_ok.mp hmap
      exact SoftWallet.Agrees.lock h hw₁
  | device s =>
      have hmap : device <$> d.lock s = .ok w' := hlock
      obtain ⟨s', -, rfl⟩ := map_eq_ok.mp hmap
      exact h

theorem unlock (hc : c.Ideal) (h : w.Agrees path entry) (password : String) :
    (w.unlock password).1.Agrees path entry := by
  cases w with
  | soft w =>
      show ((w.unlock password).toOption.getD w).Agrees path entry
      cases hunlock : w.unlock password with
      | error e => exact h
      | ok w' => exact (SoftWallet.Agrees.unlock hc h hunlock).1
  | device s => exact h

theorem checkPassword (h : w.Agrees path entry) (password : String) :
    (w.checkPassword password).1.Agrees path entry := by
  cases w with
  | soft w => exact h
  | device s => exact h

theorem listKeys (h : w.Agrees path entry) : w.listKeys.1.Agrees path entry := by
  cases w with
  | soft w => exact h
  | device s => exact h

theorem listPublicKeys (h : w.Agrees path entry) : w.listPublicKeys.1.Agrees path entry := by
  cases w with
  | soft w => exact h
  | device s => exact h

theorem trySignDigest (h : w.Agrees path entry) (digest : c.Digest) (publicKey : c.PublicKey) :
    (w.trySignDigest digest publicKey).1.Agrees path entry := by
  cases w with
  | soft w => exact h
  | device s => exact h

end WalletApi.Agrees

namespace WalletManager.Agrees

variable {m : WalletManager c d} {book : Book c}

/-- One wallet, its file and its entry are replaced. -/
theorem set (h : m.Agrees book) {name : String} {w : WalletApi c d} {files : Files}
    {entry : Option (Entry c)} (hw : w.Agrees (walletFilename m.dir name) entry)
    (hfiles : ∀ path, path ≠ walletFilename m.dir name → files path = m.files path)
    (hfile : ∀ e ∈ entry, files (walletFilename m.dir name) = some (c.toPrettyString e.data))
    (hname : ∀ e ∈ entry, validFilename name ∧ e.password.length ≠ 0) :
    ({ m with wallets := m.wallets.set name w, files } : WalletManager c d).Agrees
      (Function.update book name entry) where
  wallets name' w' hw' := by
    by_cases heq : name' = name
    · subst heq
      rw [OrderedTable.find_set_self] at hw'
      cases hw'
      rwa [Function.update_self]
    · rw [OrderedTable.find_set_of_ne _ heq] at hw'
      rw [Function.update_of_ne heq]
      exact h.wallets name' w' hw'
  files name' e he := by
    by_cases heq : name' = name
    · subst heq
      rw [Function.update_self] at he
      exact hfile e he
    · rw [Function.update_of_ne heq] at he
      exact (hfiles _ fun hpath => heq (walletFilename_inj hpath)).trans (h.files name' e he)
  names name' e he := by
    by_cases heq : name' = name
    · subst heq
      rw [Function.update_self] at he
      exact hname e he
    · rw [Function.update_of_ne heq] at he
      exact h.names name' e he

/-- One wallet is replaced in memory. -/
theorem setWallet (h : m.Agrees book) {name : String} {w : WalletApi c d}
    (hw : w.Agrees (walletFilename m.dir name) (book name)) :
    ({ m with wallets := m.wallets.set name w } : WalletManager c d).Agrees book := by
  have hset := h.set hw (fun _ _ => rfl) (h.files name) (h.names name)
  rwa [Function.update_eq_self] at hset

/-- A loop over the wallets. -/
theorem loop (h : m.Agrees book) {β : Type}
    {body : String → WalletApi c d → β → WalletApi c d × Except Error (β × Bool)} {b : β}
    (hbody : ∀ name w b path entry, ¬ w.isLocked → w.Agrees path entry →
      (body name w b).1.Agrees path entry) :
    ({ m with wallets := (forUnlocked body m.wallets.rows m.wallets b).1 } :
      WalletManager c d).Agrees book where
  wallets name w hw := by
    refine forUnlocked_wallets (I := fun name w => w.Agrees (walletFilename m.dir name) (book name))
      (fun name w b hlocked hI => hbody name w b _ _ hlocked hI) (fun row hrow => ?_) h.wallets hw
    exact h.wallets row.1 row.2 (OrderedTable.find_eq_some.mpr hrow)
  files := h.files
  names := h.names

theorem lockAll (h : m.Agrees book) : m.lockAll.1.Agrees book :=
  h.loop fun name w b path entry _ hw => by
    unfold lockBody
    split
    · next hlock => exact hw.lock hlock
    · exact hw

theorem checkTimeout (h : m.Agrees book) (now : ℤ) : (m.checkTimeout now).1.Agrees book := by
  have hlockAll := h.lockAll
  unfold WalletManager.checkTimeout
  split
  · exact h
  · split
    · split
      · next hlock =>
          rw [hlock] at hlockAll
          exact ⟨hlockAll.wallets, hlockAll.files, hlockAll.names⟩
      · next hlock =>
          rw [hlock] at hlockAll
          exact hlockAll
    · exact ⟨h.wallets, h.files, h.names⟩

/-- A method that tests the deadline first. -/
theorem checked (h : m.Agrees book) {now : ℤ} {method : WalletManager c d → Answer c d}
    {P : Answer c d → Prop} (hmethod : ∀ m : WalletManager c d, m.Agrees book → P (method m))
    (hfailed : ∀ (m : WalletManager c d) e, m.Agrees book → P ⟨m, .error e, []⟩) :
    P (m.checked now method) := by
  have hcheck := h.checkTimeout now
  unfold WalletManager.checked
  split
  · next heq =>
      rw [heq] at hcheck
      exact hmethod _ hcheck
  · next heq =>
      rw [heq] at hcheck
      exact hfailed _ _ hcheck

/-- A method that tests the deadline first and leaves the book as it is. -/
theorem checked_reads (h : m.Agrees book) {now : ℤ} {method : WalletManager c d → Answer c d}
    (hmethod : ∀ m : WalletManager c d, m.Agrees book → (method m).manager.Agrees book) :
    (m.checked now method).manager.Agrees book :=
  h.checked (P := fun a => a.manager.Agrees book) hmethod fun _ _ hm => hm

/-- A method that tests the deadline first and is noted. -/
theorem checked_notes (h : m.Agrees book) {now : ℤ} (call : Call c d)
    {method : WalletManager c d → Answer c d}
    (hmethod : ∀ m : WalletManager c d, m.Agrees book →
      (method m).manager.Agrees (book.note call (method m).reply)) :
    (m.checked now method).manager.Agrees (book.note call (m.checked now method).reply) :=
  h.checked (P := fun a => a.manager.Agrees (book.note call a.reply)) hmethod fun _ e hm =>
    (book.note_error call e).symm ▸ hm

end WalletManager.Agrees

/-- A change of a wallet with an entry is made with its entry, or nothing happens. -/
structure Follows {α : Type} (files : Files) (path : String) (entry : Option (Entry c))
    (change : Change c) (o : Outcome (WalletApi c d) α) : Prop where
  failed : ∀ e, o.result = .error e → o.object.Agrees path entry ∧ o.files = files
  made : ∀ a, o.result = .ok a →
    o.object.Agrees path (entry.map fun e => e.change change) ∧
      (∀ path', path' ≠ path → o.files path' = files path') ∧
      ∀ e ∈ entry.map fun e => e.change change, o.files path = some (c.toPrettyString e.data)

namespace Follows

variable {α β : Type} {files : Files} {path : String} {entry : Option (Entry c)}
  {change : Change c}

theorem map {o : Outcome (WalletApi c d) α} (h : Follows files path entry change o) (f : α → β) :
    Follows files path entry change
      (⟨o.object, o.files, o.result.map f⟩ : Outcome (WalletApi c d) β) where
  failed e he := by
    cases hresult : o.result with
    | error e' => exact h.failed e' hresult
    | ok a =>
        rw [hresult] at he
        cases he
  made b hb := by
    obtain ⟨a, ha, -⟩ := map_eq_ok.mp (show f <$> o.result = .ok b from hb)
    exact h.made a ha

theorem ofDevice (r : d.State × Except Error α) (hentry : entry = none) :
    Follows files path entry change (WalletApi.ofDevice files r) where
  failed _ _ := ⟨hentry, rfl⟩
  made _ _ := by
    subst hentry
    exact ⟨rfl, fun _ _ => rfl, fun e he => by cases he⟩

theorem ofSoft (hc : c.Ideal) {w : SoftWallet c} (h : w.Agrees path entry)
    {o : Outcome (SoftWallet c) α} (hrun : o.discard = change.run w .takesAll files) :
    Follows files path entry change (WalletApi.ofSoft o : Outcome (WalletApi c d) α) := by
  obtain ⟨object, files', result⟩ := o
  obtain ⟨e, hfailed⟩ | ⟨w', file, hmade, hagrees, hfile⟩ := h.change hc change files
  · obtain ⟨rfl, rfl, hresult⟩ := Outcome.mk.inj (hrun.trans hfailed)
    cases result with
    | error e => exact ⟨fun _ _ => ⟨h, rfl⟩, fun a ha => by cases ha⟩
    | ok a => cases hresult
  · obtain ⟨rfl, rfl, hresult⟩ := Outcome.mk.inj (hrun.trans hmade)
    cases result with
    | error e => cases hresult
    | ok a =>
        refine ⟨fun e he => (by cases he), fun _ _ => ⟨hagrees, fun path' hpath => ?_, ?_⟩⟩
        · exact Function.update_of_ne hpath _ _
        · rintro e' he'
          obtain ⟨e, he, rfl⟩ := Option.map_eq_some_iff.mp he'
          rw [← hfile e he]
          exact Function.update_self ..

theorem importKey (hc : c.Ideal) {w : WalletApi c d} (h : w.Agrees path entry)
    (wifKey : String) :
    Follows files path entry (.importKey wifKey) (w.importKey .takesAll files wifKey) := by
  cases w with
  | soft w => exact ofSoft hc h rfl
  | device s => exact ofDevice _ h

theorem removeKey (hc : c.Ideal) {w : WalletApi c d} (h : w.Agrees path entry) (key : String) :
    Follows files path entry (.removeKey key) (w.removeKey .takesAll files key) := by
  cases w with
  | soft w => exact ofSoft hc h rfl
  | device s => exact ofDevice _ h

theorem createKey (hc : c.Ideal) {w : WalletApi c d} (h : w.Agrees path entry)
    (keyType : String) (seed : c.Seed) :
    Follows files path entry (.createKey keyType seed)
      (w.createKey .takesAll files keyType seed) := by
  cases w with
  | soft w => exact ofSoft hc h rfl
  | device s => exact ofDevice _ h

/-- A method that checks the password first. -/
theorem withPassword {w : WalletApi c d} (h : w.Agrees path entry) {password : String}
    {method : WalletApi c d → Files → Outcome (WalletApi c d) (Reply c)}
    (hmethod : ∀ w : WalletApi c d, w.Agrees path entry →
      Follows files path entry change (method w files)) :
    Follows files path entry change (WalletManager.withPassword password method w files) := by
  have hcheck := h.checkPassword password
  unfold WalletManager.withPassword
  split
  · next heq =>
      rw [heq] at hcheck
      exact ⟨fun _ _ => ⟨hcheck, rfl⟩, fun a ha => by cases ha⟩
  · next heq =>
      rw [heq] at hcheck
      exact hmethod _ hcheck

end Follows

namespace WalletManager.Agrees

variable {m : WalletManager c d} {book : Book c}

/-- A method that changes the keys of an unlocked wallet. -/
theorem onUnlocked (h : m.Agrees book) {call : Call c d} {name : String} {change : Change c}
    (hcall : call.change = some (name, change))
    {method : WalletApi c d → Files → Outcome (WalletApi c d) (Reply c)}
    (hmethod : ∀ w : WalletApi c d, w.Agrees (walletFilename m.dir name) (book name) →
      Follows m.files (walletFilename m.dir name) (book name) change (method w m.files)) :
    (m.onUnlocked name method).manager.Agrees
      (book.note call (m.onUnlocked name method).reply) := by
  have hnote : ∀ reply, book.note call (.ok reply) =
      Function.update book name ((book name).map fun e => e.change change) := by
    intro reply
    cases call with
    | importKey | removeKey | createKey =>
        cases hcall
        rfl
    | _ => cases hcall
  unfold WalletManager.onUnlocked
  cases hfind : m.wallets.find name with
  | none => exact (book.note_error call _).symm ▸ h
  | some w =>
      rw [Option.elim_some]
      split
      · exact (book.note_error call _).symm ▸ h
      · have hfollows := hmethod w (h.wallets name w hfind)
        dsimp only
        cases hresult : (method w m.files).result with
        | error e =>
            obtain ⟨hagrees, hfiles⟩ := hfollows.failed e hresult
            rw [Book.note_error, hfiles]
            exact h.setWallet hagrees
        | ok reply =>
            obtain ⟨hagrees, hothers, hfile⟩ := hfollows.made reply hresult
            rw [hnote]
            refine h.set hagrees hothers hfile fun e' he' => ?_
            obtain ⟨e, he, rfl⟩ := Option.map_eq_some_iff.mp he'
            exact h.names name e he

/-- A method that only reads. -/
theorem onUnlocked_reads (h : m.Agrees book) {name : String}
    {method : WalletApi c d → Files → Outcome (WalletApi c d) (Reply c)}
    (hmethod : ∀ (w : WalletApi c d) path entry, w.Agrees path entry →
      (method w m.files).object.Agrees path entry ∧ (method w m.files).files = m.files) :
    (m.onUnlocked name method).manager.Agrees book := by
  unfold WalletManager.onUnlocked
  cases hfind : m.wallets.find name with
  | none => exact h
  | some w =>
      rw [Option.elim_some]
      split
      · exact h
      · obtain ⟨hagrees, hfiles⟩ := hmethod w _ _ (h.wallets name w hfind)
        dsimp only
        rw [hfiles]
        exact h.setWallet hagrees

/-- A wallet from its file. -/
theorem openFile (hc : c.Ideal) (h : m.Agrees book) (name : String) :
    (m.openFile name).manager.Agrees book := by
  unfold WalletManager.openFile
  dsimp only
  split
  · exact h
  · exact h
  · next hload =>
      obtain ⟨text, data, hfile, hdata, rfl⟩ := SoftWallet.loadWalletFile_eq_ok.mp hload
      refine h.setWallet ⟨rfl, fun _ => rfl, fun e he => ?_, fun _ _ hnot => ?_⟩
      · rw [Option.some.inj (hfile.symm.trans (h.files name e he)), hc.json] at hdata
        exact (Option.some.inj hdata).symm
      · exact absurd (decide_eq_true rfl) hnot

theorem open' (hc : c.Ideal) (h : m.Agrees book) (now : ℤ) (name : String) :
    (m.open' now name).manager.Agrees book :=
  h.checked_reads fun m hm => by
    split
    · exact hm
    · exact hm.openFile hc name

theorem unlockFound (hc : c.Ideal) (h : m.Agrees book) (name password : String) :
    (m.unlockFound name password).manager.Agrees book := by
  unfold WalletManager.unlockFound
  cases hfind : m.wallets.find name with
  | none => exact h
  | some w =>
      rw [Option.elim_some]
      split
      · exact h
      · exact h.setWallet ((h.wallets name w hfind).unlock hc password)

theorem unlock (hc : c.Ideal) (h : m.Agrees book) (now : ℤ) (name password : String) :
    (m.unlock now name password).manager.Agrees book :=
  h.checked_reads fun m hm => by
    have hopen := hm.open' hc now name
    split
    · split
      · next heq =>
          rw [heq] at hopen
          exact hopen
      · next heq =>
          rw [heq] at hopen
          exact hopen.unlockFound hc name password
    · exact hm.unlockFound hc name password

end WalletManager.Agrees

/-- The steps in which a new wallet gets its password. -/
theorem newWallet_agrees (hc : c.Ideal) {path password : String} {w : SoftWallet c}
    (h : WalletManager.newWallet path password = .ok w) :
    w.Agrees path (some ⟨password, .empty⟩) ∧ ¬ w.isLocked ∧ password.length ≠ 0 := by
  obtain ⟨w₁, hset, h⟩ := bind_eq_ok.mp h
  obtain ⟨w₂, hunlock, h⟩ := bind_eq_ok.mp h
  obtain ⟨w₃, hlock, hunlock'⟩ := bind_eq_ok.mp h
  obtain ⟨-, rfl⟩ := SoftWallet.lock_eq_ok.mp hset
  have hfirst : ({ walletFilename := path
                   wallet := ⟨c.aesEncrypt (c.sha512 password) ⟨c.sha512 password, .empty⟩⟩
                   keys := .empty
                   checksum := c.noHash } : SoftWallet c).Agrees path
      (some ⟨password, .empty⟩) := by
    refine ⟨rfl, fun _ => rfl, fun e he => ?_, fun _ _ hnot => absurd (decide_eq_true rfl) hnot⟩
    cases he
    rfl
  obtain ⟨hagrees, hunlocked⟩ := ((hfirst.unlock hc hunlock).1.lock hlock).unlock hc hunlock'
  obtain ⟨_, hpk, -⟩ := SoftWallet.unlock_eq_ok.mp hunlock'
  exact ⟨hagrees, hunlocked, (SoftWallet.decrypted_eq_some.mp hpk).1⟩

namespace WalletManager.Agrees

variable {m : WalletManager c d} {book : Book c}

theorem createFile (hc : c.Ideal) (h : m.Agrees book) {name : String} (hvalid : validFilename name)
    (seed : c.Seed) : (m.createFile name seed .takesAll).manager.Agrees
      (book.note (.create name seed .takesAll : Call c d)
        (m.createFile name seed .takesAll).reply) := by
  unfold WalletManager.createFile
  dsimp only
  split
  · next e _ => exact (book.note_error (.create name seed .takesAll : Call c d) e).symm ▸ h
  · next w hnew =>
      obtain ⟨hagrees, hunlocked, hlength⟩ := newWallet_agrees hc hnew
      rw [SoftWallet.saveWalletFile_takesAll, hagrees.encryptKeys_eq, hagrees.walletFilename,
        hagrees.wallet _ rfl]
      refine h.set hagrees (fun path hpath => Function.update_of_ne hpath _ _) (fun e he => ?_)
        fun e he => ?_
      · cases he
        exact Function.update_self ..
      · cases he
        exact ⟨hvalid, hlength⟩

theorem create (hc : c.Ideal) (h : m.Agrees book) (now : ℤ) (name : String) (seed : c.Seed) :
    (m.create now name seed .takesAll).manager.Agrees
      (book.note (.create name seed .takesAll : Call c d)
        (m.create now name seed .takesAll).reply) :=
  h.checked_notes (.create name seed .takesAll) fun m hm => by
    split
    · exact hm
    · next hvalid =>
        split
        · exact hm
        · exact hm.createFile hc (by simpa using hvalid) seed

theorem lockNamed (h : m.Agrees book) (now : ℤ) (name : String) :
    (m.lock now name).manager.Agrees book :=
  h.checked_reads fun m hm => by
    cases hfind : m.wallets.find name with
    | none => exact hm
    | some w =>
        rw [Option.elim_some]
        split
        · exact hm
        · split
          · exact hm
          · next hlock => exact hm.setWallet ((hm.wallets name w hfind).lock hlock)

end WalletManager.Agrees

/-- The calls of the law: the directory stays, no wallet comes from elsewhere, and no file
fails. -/
def Call.Plain : Call c d → Prop
  | .setDir _ _ _ => False
  | .ownAndUseWallet _ _ => False
  | .create _ _ disk => disk = .takesAll
  | .importKey _ _ disk => disk = .takesAll
  | .removeKey _ _ _ disk => disk = .takesAll
  | .createKey _ _ _ disk => disk = .takesAll
  | _ => True

theorem signBody_agrees {digest : c.Digest} {publicKey : c.PublicKey} {name path : String}
    {w : WalletApi c d} {entry : Option (Entry c)} (h : w.Agrees path entry)
    (b : Option (String × c.Signature)) :
    (signBody digest publicKey name w b).1.Agrees path entry := by
  have hsign := h.trySignDigest digest publicKey
  unfold signBody
  split
  all_goals
    next heq =>
      rw [heq] at hsign
      exact hsign

theorem publicKeysBody_agrees {name path : String} {w : WalletApi c d}
    {entry : Option (Entry c)} (h : w.Agrees path entry) (b : Finset c.PublicKey × Bool) :
    (publicKeysBody name w b).1.Agrees path entry := by
  have hkeys := h.listPublicKeys
  unfold publicKeysBody
  split
  all_goals
    next heq =>
      rw [heq] at hkeys
      exact hkeys

namespace WalletManager.Agrees

variable {m : WalletManager c d} {book : Book c}

theorem trySign (h : m.Agrees book) {digest : c.Digest} {publicKey : c.PublicKey}
    {r : Wallets c d × Except Error (Option (String × c.Signature))}
    (hr : Wallet.trySign digest publicKey m.wallets = r) :
    ({ m with wallets := r.1 } : WalletManager c d).Agrees book :=
  hr ▸ h.loop fun _ _ b _ _ _ hw => signBody_agrees hw b

theorem signEach (digest : c.Digest) (keys : List c.PublicKey) (h : m.Agrees book)
    (signed : List (String × c.Signature)) :
    ({ m with wallets := (Wallet.signEach digest keys m.wallets signed).1 } :
      WalletManager c d).Agrees book := by
  induction keys generalizing m signed with
  | nil => exact h
  | cons publicKey keys ih =>
      unfold Wallet.signEach
      split
      · next hsign => exact h.trySign hsign
      · next hsign => exact h.trySign hsign
      · next s hsign => exact ih (h.trySign hsign) (signed ++ [s])

/-- The calls that are not noted. -/
theorem call_reads (hc : c.Ideal) (h : m.Agrees book) (now : ℤ) {call : Call c d}
    (hplain : call.Plain) (hchange : call.change = none)
    (hcreate : ∀ name seed disk, call ≠ .create name seed disk) :
    (m.call now call).manager.Agrees book := by
  cases call with
  | setDir | ownAndUseWallet => cases hplain
  | importKey | removeKey | createKey => cases hchange
  | create name seed disk => exact absurd rfl (hcreate name seed disk)
  | setTimeout t => exact ⟨h.wallets, h.files, h.names⟩
  | lockAll => exact h.lockAll
  | lock name => exact h.lockNamed now name
  | unlock name password => exact h.unlock hc now name password
  | «open» name => exact h.open' hc now name
  | listWallets => exact h.checked_reads fun _ hm => hm
  | signTransaction txn keys id => exact h.checked_reads fun _ hm => hm.signEach _ keys []
  | signDigest digest key =>
      refine h.checked_reads fun m hm => ?_
      split
      · next hsign => exact hm.trySign hsign
      · next hsign => exact hm.trySign hsign
      · next hsign => exact hm.trySign hsign
  | listKeys name password =>
      refine h.checked_reads fun m hm => hm.onUnlocked_reads fun w path entry hw => ?_
      have hcheck := hw.checkPassword password
      unfold withPassword
      split
      · next heq =>
          rw [heq] at hcheck
          exact ⟨hcheck, rfl⟩
      · next heq =>
          rw [heq] at hcheck
          exact ⟨hcheck.listKeys, rfl⟩
  | getPublicKeys =>
      refine h.checked_reads fun m hm => ?_
      dsimp only
      split
      · exact hm
      · exact hm.loop fun _ _ b _ _ _ hw => publicKeysBody_agrees hw b

/-- A call keeps the wallets, the files and the book together. -/
theorem call (hc : c.Ideal) (h : m.Agrees book) (now : ℤ) {call : Call c d}
    (hplain : call.Plain) :
    (m.call now call).manager.Agrees (book.note call (m.call now call).reply) := by
  cases call with
  | create name seed disk =>
      cases hplain
      exact h.create hc now name seed
  | importKey name wifKey disk =>
      cases hplain
      exact h.checked_notes (.importKey name wifKey .takesAll) fun m hm =>
        hm.onUnlocked rfl fun w hw => (Follows.importKey hc hw wifKey).map _
  | removeKey name password key disk =>
      cases hplain
      exact h.checked_notes (.removeKey name password key .takesAll) fun m hm =>
        hm.onUnlocked rfl fun w hw => Follows.withPassword hw fun w hw =>
          (Follows.removeKey hc hw key).map _
  | createKey name keyType seed disk =>
      cases hplain
      exact h.checked_notes (.createKey name keyType seed .takesAll) fun m hm =>
        hm.onUnlocked rfl fun w hw => (Follows.createKey hc hw _ seed).map _
  | _ =>
      rw [Book.note_of_reads book rfl (fun _ _ _ h => by cases h)]
      exact h.call_reads hc now hplain rfl (fun _ _ _ h => by cases h)

end WalletManager.Agrees

/-! ### Runs -/

/-- The manager and the book. -/
structure Bookkept (c : Primitives) (d : Devices c) where
  manager : WalletManager c d
  book : Book c

def noteStep (s : Bookkept c d) (e : ℤ × Call c d) : Except Empty (Bookkept c d) :=
  let a := s.manager.call e.1 e.2
  .ok ⟨a.manager, s.book.note e.2 a.reply⟩

/-- The keys can be used: they are listed, and they sign. -/
structure Usable (m : WalletManager c d) (name : String)
    (keys : OrderedTable c.PublicKey c.PrivateKey) : Prop where
  wallet : ∃ w : SoftWallet c, m.wallets.find name = some (.soft w) ∧ w.listKeys = .ok keys ∧
    ∀ digest publicKey, w.trySignDigest digest publicKey =
      (keys.find publicKey).map fun priv => c.sign priv digest

/-- A wallet of the book opens with its password, to its keys, and with no other password. -/
structure Opens (m : WalletManager c d) (name : String) (e : Entry c) : Prop where
  unlocked : ∀ w, m.wallets.find name = some w → ¬ w.isLocked → Usable m name e.keys
  opens : ∀ now, (∀ w, (m.checkTimeout now).1.wallets.find name = some w → w.isLocked) →
    (m.unlock now name e.password).reply = .ok .done
  usable : ∀ now, Usable (m.unlock now name e.password).manager name e.keys
  refuses : ∀ now password, c.sha512 password ≠ c.sha512 e.password →
    (∃ err, (m.unlock now name password).reply = .error err) ∧
      (∀ w, (m.checkTimeout now).1.wallets.find name = some w →
        (m.unlock now name password).manager.wallets.find name = some w) ∧
      ((m.checkTimeout now).1.wallets.find name = none →
        LockedIn (m.unlock now name password).manager.wallets name)

section Opening

variable {m : WalletManager c d} {book : Book c} {name path : String} {e : Entry c}

theorem SoftWallet.Agrees.usable {w : SoftWallet c} (h : w.Agrees path (some e))
    (hunlocked : ¬ w.isLocked) (hfind : m.wallets.find name = some (.soft w)) :
    Usable m name e.keys := by
  obtain ⟨-, hkeys⟩ := h.unlocked e rfl hunlocked
  refine ⟨w, hfind, ?_, fun digest publicKey => ?_⟩
  · rw [SoftWallet.listKeys, if_neg hunlocked, hkeys]
  · rw [SoftWallet.trySignDigest, hkeys]

/-- A wallet of the book is one with a file. -/
theorem WalletManager.Agrees.soft (h : m.Agrees book) (he : book name = some e)
    {w : WalletApi c d} (hfind : m.wallets.find name = some w) :
    ∃ w', w = .soft w' ∧ w'.Agrees (walletFilename m.dir name) (some e) := by
  have hagrees := he ▸ h.wallets name w hfind
  cases w with
  | soft w => exact ⟨w, rfl, hagrees⟩
  | device s => cases hagrees

theorem WalletManager.unlockFound_of_unlocked {w : WalletApi c d}
    (hfind : m.wallets.find name = some w) (hunlocked : ¬ w.isLocked) (password : String) :
    m.unlockFound name password =
      ⟨m, .error ⟨.walletUnlocked, "Wallet is already unlocked: " ++ name⟩, []⟩ := by
  rw [unlockFound, hfind, Option.elim_some, if_pos (by simpa using hunlocked)]

theorem WalletManager.unlockFound_of_locked {w : WalletApi c d}
    (hfind : m.wallets.find name = some w) (hlocked : w.isLocked) (password : String) :
    m.unlockFound name password =
      ⟨{ m with wallets := m.wallets.set name (w.unlock password).1 },
        (w.unlock password).2.map fun _ => .done, []⟩ := by
  rw [unlockFound, hfind, Option.elim_some, if_neg (by simpa using hlocked)]

/-- The right password. -/
theorem WalletManager.unlockFound_opens (hc : c.Ideal) {w : SoftWallet c}
    (hfind : m.wallets.find name = some (.soft w)) (hlocked : w.isLocked)
    (h : w.Agrees path (some e)) (hlength : e.password.length ≠ 0) :
    (m.unlockFound name e.password).reply = .ok .done ∧
      Usable (m.unlockFound name e.password).manager name e.keys := by
  obtain ⟨w', hunlock⟩ := (h.unlock_iff hc).mpr ⟨hlength, rfl⟩
  obtain ⟨hagrees, hunlocked⟩ := h.unlock hc hunlock
  have hfound : m.unlockFound name e.password =
      ⟨{ m with wallets := m.wallets.set name (.soft w') }, .ok .done, []⟩ := by
    rw [unlockFound_of_locked hfind hlocked, WalletApi.unlock, hunlock]
    rfl
  rw [hfound]
  exact ⟨rfl, hagrees.usable hunlocked (OrderedTable.find_set_self ..)⟩

/-- Another password. -/
theorem WalletManager.unlockFound_refuses (hc : c.Ideal) {w : SoftWallet c}
    (hfind : m.wallets.find name = some (.soft w)) (h : w.Agrees path (some e))
    {password : String} (hpassword : c.sha512 password ≠ c.sha512 e.password) :
    (∃ err, (m.unlockFound name password).reply = .error err) ∧
      (m.unlockFound name password).manager.wallets.find name = some (.soft w) := by
  by_cases hlocked : w.isLocked
  · cases hunlock : w.unlock password with
    | ok w' => exact absurd ((h.unlock_iff hc).mp ⟨w', hunlock⟩).2 hpassword
    | error err =>
        have hfound : m.unlockFound name password =
            ⟨{ m with wallets := m.wallets.set name (.soft w) }, .error err, []⟩ := by
          rw [unlockFound_of_locked hfind hlocked, WalletApi.unlock, hunlock]
          rfl
        rw [hfound]
        exact ⟨⟨err, rfl⟩, OrderedTable.find_set_self ..⟩
  · rw [unlockFound_of_unlocked hfind hlocked]
    exact ⟨⟨_, rfl⟩, hfind⟩

/-- A wallet of the book can be loaded from its file. -/
theorem WalletManager.Agrees.openFile_ok (hc : c.Ideal) (h : m.Agrees book)
    (he : book name = some e) : ∃ w : SoftWallet c, w.isLocked ∧
      m.openFile name = ⟨{ m with wallets := m.wallets.set name (.soft w) }, .ok .done, []⟩ := by
  have hload : (SoftWallet.new (walletFilename m.dir name) : SoftWallet c).loadWalletFile m.files =
      .ok ({ SoftWallet.new (walletFilename m.dir name) with wallet := e.data }, true) :=
    SoftWallet.loadWalletFile_eq_ok.mpr ⟨_, _, h.files name e he, hc.json e.data, rfl⟩
  refine ⟨_, ?_, by rw [WalletManager.openFile, hload]⟩
  exact decide_eq_true rfl

theorem WalletManager.Agrees.open_ok (hc : c.Ideal) (h : m.Agrees book)
    (he : book name = some e) (now : ℤ) : ∃ (m' : WalletManager c d) (w : SoftWallet c),
      m.open' now name = ⟨m', .ok .done, []⟩ ∧ m'.wallets.find name = some (.soft w) ∧
        w.isLocked ∧ w.Agrees (walletFilename m.dir name) (some e) := by
  have hagrees := h.checkTimeout now
  obtain ⟨wallets, hcheck, -⟩ := m.checkTimeout_eq now
  rw [hcheck] at hagrees
  obtain ⟨w, hlocked, hopen⟩ := hagrees.openFile_ok hc he
  have hopened : m.open' now name =
      ⟨{ m with
          wallets := wallets.set name (.soft w)
          timeoutTime := m.putOff now }, .ok .done, []⟩ := by
    rw [WalletManager.open', WalletManager.checked, hcheck]
    exact (if_neg (by simp [(h.names name e he).1])).trans hopen
  have hwallet := h.open' hc now name
  rw [hopened] at hwallet
  obtain ⟨_, hw, hw'⟩ := hwallet.soft he (OrderedTable.find_set_self ..)
  cases hw
  exact ⟨_, w, hopened, OrderedTable.find_set_self .., hlocked, hw'⟩

/-- Unlocking is unlocking a wallet that is there, which may have come from its file. -/
theorem WalletManager.Agrees.unlock_cases (hc : c.Ideal) (h : m.Agrees book)
    (he : book name = some e) (now : ℤ) (password : String) :
    (∃ w : SoftWallet c, (m.checkTimeout now).1.wallets.find name = some (.soft w) ∧
        w.Agrees (walletFilename m.dir name) (some e) ∧
        m.unlock now name password = (m.checkTimeout now).1.unlockFound name password) ∨
      (m.checkTimeout now).1.wallets.find name = none ∧ ∃ (m' : WalletManager c d)
        (w : SoftWallet c), m'.wallets.find name = some (.soft w) ∧ w.isLocked ∧
          w.Agrees (walletFilename m.dir name) (some e) ∧
          m.unlock now name password = m'.unlockFound name password := by
  have hagrees := h.checkTimeout now
  obtain ⟨wallets, hcheck, -⟩ := m.checkTimeout_eq now
  rw [WalletManager.unlock, WalletManager.checked, hcheck]
  rw [hcheck] at hagrees
  dsimp only
  cases hfind : wallets.find name with
  | some w =>
      obtain ⟨w, rfl, hw⟩ := hagrees.soft he hfind
      exact .inl ⟨w, rfl, hw, if_neg (by simp)⟩
  | none =>
      obtain ⟨m', w, hopen, hw, hlocked, hagrees⟩ := hagrees.open_ok hc he now
      refine .inr ⟨rfl, m', w, hw, hlocked, hagrees, ?_⟩
      rw [if_pos Option.isNone_none, hopen]

theorem WalletManager.Agrees.opens (hc : c.Ideal) (h : m.Agrees book) (he : book name = some e) :
    Opens m name e where
  unlocked w hw hunlocked := by
    obtain ⟨w, rfl, hagrees⟩ := h.soft he hw
    exact hagrees.usable hunlocked hw
  opens now hlocked := by
    have hlength := (h.names name e he).2
    obtain ⟨w, hw, hagrees, hunlock⟩ | ⟨-, m', w, hw, hw', hagrees, hunlock⟩ :=
      h.unlock_cases hc he now e.password
    · rw [hunlock]
      exact (unlockFound_opens hc hw (hlocked _ hw) hagrees hlength).1
    · rw [hunlock]
      exact (unlockFound_opens hc hw hw' hagrees hlength).1
  usable now := by
    have hlength := (h.names name e he).2
    obtain ⟨w, hw, hagrees, hunlock⟩ | ⟨-, m', w, hw, hw', hagrees, hunlock⟩ :=
      h.unlock_cases hc he now e.password
    · rw [hunlock]
      by_cases hlocked : w.isLocked
      · exact (unlockFound_opens hc hw hlocked hagrees hlength).2
      · rw [unlockFound_of_unlocked hw hlocked]
        exact hagrees.usable hlocked hw
    · rw [hunlock]
      exact (unlockFound_opens hc hw hw' hagrees hlength).2
  refuses now password hpassword := by
    obtain ⟨w, hw, hagrees, hunlock⟩ | ⟨hnone, m', w, hw, hw', hagrees, hunlock⟩ :=
      h.unlock_cases hc he now password
    · obtain ⟨herror, hsame⟩ := unlockFound_refuses hc hw hagrees hpassword
      rw [hunlock]
      refine ⟨herror, fun w' hw' => ?_, fun hnone => ?_⟩
      · rw [hw] at hw'
        cases hw'
        exact hsame
      · rw [hw] at hnone
        cases hnone
    · obtain ⟨herror, hsame⟩ := unlockFound_refuses hc hw hagrees hpassword
      rw [hunlock]
      refine ⟨herror, fun w' hw' => ?_, fun _ => ⟨_, hsame, hw'⟩⟩
      rw [hnone] at hw'
      cases hw'

end Opening

/-- In every state of a run without file errors, locked wallets have no keys in memory, and
every wallet that has been created opens with its password, to the keys that were imported or
created and not removed since, and with no other password. -/
theorem wallets_follow_book (hc : c.Ideal) (m : WalletManager c d)
    (hdevices : ∀ name w, m.wallets.find name = some w → ∃ s, w = .device s)
    (calls : List (ℤ × Call c d)) (hplain : ∀ e ∈ calls, e.2.Plain) :
    let s := run noteStep ⟨m, fun _ => none⟩ calls
    (∀ name w, s.manager.wallets.find name = some (.soft w) → w.isLocked → w.keys = .empty) ∧
      ∀ name e, s.book name = some e → Opens s.manager name e := by
  have hstart : m.Agrees fun _ => none :=
    ⟨fun name w hw => by obtain ⟨s, rfl⟩ := hdevices name w hw; rfl, fun _ _ he => (by cases he),
      fun _ _ he => (by cases he)⟩
  have hstep : ∀ (s : Bookkept c d) (e : ℤ × Call c d) s', s.manager.Agrees s.book → e.2.Plain →
      noteStep s e = .ok s' → s'.manager.Agrees s'.book ∧ True := by
    intro s e s' hs he hs'
    have hs' := Except.ok.inj hs'
    subst hs'
    exact ⟨hs.call hc e.1 he, trivial⟩
  have hrun := (along_induction (P := fun _ _ _ => True)
    (s := (⟨m, fun _ => none⟩ : Bookkept c d)) hstep hplain hstart).1
  exact ⟨fun name w hw => (hrun.wallets name (.soft w) hw).locked, fun name e he =>
    hrun.opens hc he⟩

/-- A wallet is created, a key is imported and one is created, and all are locked. -/
def firstKeys : List (ℤ × Call bytePrimitives (noDevices bytePrimitives)) :=
  [(0, .create "w" ⟨5, by decide⟩ .takesAll), (1, .importKey "w" "kkk" .takesAll),
    (2, .createKey "w" "k1" ⟨7, by decide⟩ .takesAll), (3, .lockAll)]

theorem bytePrimitives_ideal : bytePrimitives.Ideal where
  json := bytePrimitives_readsBack.json
  aes key key' pk := bytePrimitives_decrypt key' key pk
  wif := bytePrimitives_readsBack.wif
  sha512 text h := by
    have hval : 1 + text.length % 255 = 0 := congrArg Fin.val h
    omega

theorem wallets_follow_book_firstKeys :
    let s := run noteStep ⟨WalletManager.start fun _ => none, fun _ => none⟩ firstKeys
    (∀ name w, s.manager.wallets.find name = some (.soft w) → w.isLocked → w.keys = .empty) ∧
      ∀ name e, s.book name = some e → Opens s.manager name e :=
  wallets_follow_book bytePrimitives_ideal (WalletManager.start fun _ => none)
    (fun _ _ h => by cases h) firstKeys (by
      simp [firstKeys, Call.Plain])

end Xidata.Wallet
