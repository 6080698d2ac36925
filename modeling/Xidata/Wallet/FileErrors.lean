import Xidata.Wallet.SoftWallet

/-!
Changes of the keys under file errors.  The key is in memory before the file is opened, and the
file is empty before the text is in it: a change is in both places or in neither exactly when
it is refused before that or all of the text reaches the file.
-/

namespace Xidata.Wallet

open Rollback

variable {c : Primitives}

/-- What the libraries are relied on for: texts and cipher texts are read back as what was
written, and a text that breaks off is not JSON. -/
structure Primitives.ReadsBack (c : Primitives) : Prop where
  json : ∀ data, c.readWalletData (c.toPrettyString data) = some data
  json_take : ∀ data count, count < (c.toPrettyString data).length →
    c.readWalletData ((c.toPrettyString data).take count) = none
  aes : ∀ key pk, c.aesDecrypt key (c.aesEncrypt key pk) = some pk
  wif : ∀ priv, c.privateKey (c.wif priv) = some priv

/-- The calls that change the keys of a wallet. -/
inductive Change (c : Primitives)
  | importKey (wifKey : String)
  | removeKey (key : String)
  | createKey (keyType : String) (seed : c.Seed)

namespace Change

def run (w : SoftWallet c) (disk : Disk) (files : Files) :
    Change c → Outcome (SoftWallet c) Unit
  | .importKey wifKey => (w.importKey disk files wifKey).discard
  | .removeKey key => (w.removeKey disk files key).discard
  | .createKey keyType seed => (w.createKey disk files keyType seed).discard

/-- The key that the call is about. -/
def key : Change c → Option c.PublicKey
  | .importKey wifKey => (c.privateKey wifKey).map c.publicKey
  | .removeKey key => c.readPublicKey key
  | .createKey keyType seed => (SoftWallet.generate keyType seed).map c.publicKey

def removes : Change c → Bool
  | .removeKey _ => true
  | _ => false

/-- The new key set, by what the call is for. -/
def asksFor (keys : OrderedTable c.PublicKey c.PrivateKey) :
    Change c → Option (OrderedTable c.PublicKey c.PrivateKey)
  | .importKey wifKey => (c.privateKey wifKey).map fun priv => keys.set (c.publicKey priv) priv
  | .removeKey key => (c.readPublicKey key).map keys.erase
  | .createKey keyType seed =>
    (SoftWallet.generate keyType seed).map fun priv => keys.set (c.publicKey priv) priv

theorem exists_asksFor {change : Change c} {pub : c.PublicKey} (hkey : change.key = some pub)
    (keys : OrderedTable c.PublicKey c.PrivateKey) : ∃ keys', change.asksFor keys = some keys' := by
  cases change with
  | importKey wifKey =>
      obtain ⟨priv, hpriv, -⟩ := Option.map_eq_some_iff.mp hkey
      exact ⟨_, by rw [asksFor, hpriv]; rfl⟩
  | removeKey key =>
      exact ⟨_, by rw [asksFor, show c.readPublicKey key = some pub from hkey]; rfl⟩
  | createKey keyType seed =>
      obtain ⟨priv, hpriv, -⟩ := Option.map_eq_some_iff.mp hkey
      exact ⟨_, by rw [asksFor, hpriv]; rfl⟩

theorem isSome_find_asksFor {change : Change c} {pub : c.PublicKey}
    {keys keys' : OrderedTable c.PublicKey c.PrivateKey} (hkey : change.key = some pub)
    (hkeys : change.asksFor keys = some keys') : (keys'.find pub).isSome = !change.removes := by
  cases change with
  | importKey wifKey =>
      obtain ⟨priv, hpriv, rfl⟩ := Option.map_eq_some_iff.mp hkey
      rw [asksFor, hpriv] at hkeys
      cases hkeys
      rw [OrderedTable.find_set_self]
      rfl
  | removeKey key =>
      rw [asksFor, show c.readPublicKey key = some pub from hkey] at hkeys
      cases hkeys
      rw [OrderedTable.find_erase_self]
      rfl
  | createKey keyType seed =>
      obtain ⟨priv, hpriv, rfl⟩ := Option.map_eq_some_iff.mp hkey
      rw [asksFor, hpriv] at hkeys
      cases hkeys
      rw [OrderedTable.find_set_self]
      rfl

/-- The wallet is locked, the text is of no key, or the wallet has the key already, or has not
got the key to be removed. -/
def Refused (w : SoftWallet c) (change : Change c) : Prop :=
  w.isLocked ∨ ∀ pub, change.key = some pub → (w.keys.find pub).isSome ≠ change.removes

end Change

/-- The key set in a wallet file, for the hash of a password. -/
def fileKeys (c : Primitives) (hash : c.Hash) (file : Option Bytes) :
    Option (OrderedTable c.PublicKey c.PrivateKey) :=
  (file.bind c.readWalletData).bind fun data =>
    (c.aesDecrypt hash data.cipherKeys).map PlainKeys.keys

/-- What the file is to hold for a key set. -/
def SoftWallet.fileText (w : SoftWallet c) (keys : OrderedTable c.PublicKey c.PrivateKey) :
    Bytes :=
  c.toPrettyString ⟨c.aesEncrypt w.checksum ⟨w.checksum, keys⟩⟩

/-- The change is in memory and in the file, or the call throws and it is in neither. -/
def Atomic (w : SoftWallet c) (files : Files) (change : Change c)
    (o : Outcome (SoftWallet c) Unit) : Prop :=
  (o.result = .ok () ∧ change.asksFor w.keys = some o.object.keys ∧
      fileKeys c w.checksum (o.files w.walletFilename) = some o.object.keys) ∨
    (∃ e, o.result = .error e) ∧ o.object.keys = w.keys ∧
      ∀ hash, fileKeys c hash (o.files w.walletFilename) =
        fileKeys c hash (files w.walletFilename)

/-- All of the text reaches the file. -/
def Written (w : SoftWallet c) (disk : Disk) (change : Change c) : Prop :=
  ∀ keys, change.asksFor w.keys = some keys →
    disk.written (w.fileText keys) = some (w.fileText keys)

/-! ### One call -/

namespace Change

/-- The change in memory. -/
def impl (w : SoftWallet c) : Change c → Except Error (SoftWallet c)
  | .importKey wifKey => Prod.fst <$> w.implImportKey wifKey
  | .removeKey key => Prod.fst <$> w.implRemoveKey key
  | .createKey keyType seed => Prod.fst <$> w.implCreateKey keyType seed

theorem impl_eq_ok (hwif : ∀ priv, c.privateKey (c.wif priv) = some priv) {w w' : SoftWallet c}
    {change : Change c} :
    change.impl w = .ok w' ↔ ∃ pub, change.key = some pub ∧
      (w.keys.find pub).isSome = change.removes ∧ ∃ keys, change.asksFor w.keys = some keys ∧
      { w with keys } = w' := by
  have hnone {pub : c.PublicKey} (h : (w.keys.find pub).isSome = false) :
      w.keys.find pub = none := Option.isSome_eq_false_iff.mp h |> Option.isNone_iff_eq_none.mp
  cases change with
  | importKey wifKey =>
      constructor
      · intro h
        obtain ⟨⟨_, _⟩, himport, rfl⟩ := map_eq_ok.mp h
        obtain ⟨priv, hpriv, hfind, rfl, -⟩ := SoftWallet.implImportKey_eq_ok.mp himport
        exact ⟨c.publicKey priv, by rw [key, hpriv]; rfl, by rw [hfind]; rfl, _,
          by rw [asksFor, hpriv]; rfl, rfl⟩
      · rintro ⟨pub, hkey, hfind, keys, hkeys, rfl⟩
        obtain ⟨priv, hpriv, rfl⟩ := Option.map_eq_some_iff.mp hkey
        rw [asksFor, hpriv] at hkeys
        cases hkeys
        exact map_eq_ok.mpr
          ⟨_, SoftWallet.implImportKey_eq_ok.mpr ⟨priv, hpriv, hnone hfind, rfl, rfl⟩, rfl⟩
  | removeKey key =>
      constructor
      · intro h
        obtain ⟨⟨_, _⟩, hremove, rfl⟩ := map_eq_ok.mp h
        obtain ⟨pub, hpub, hfind, rfl, -⟩ := SoftWallet.implRemoveKey_eq_ok.mp hremove
        exact ⟨pub, hpub, hfind, _, by rw [asksFor, hpub]; rfl, rfl⟩
      · rintro ⟨pub, hpub, hfind, keys, hkeys, rfl⟩
        rw [asksFor, show c.readPublicKey key = some pub from hpub] at hkeys
        cases hkeys
        exact map_eq_ok.mpr
          ⟨_, SoftWallet.implRemoveKey_eq_ok.mpr ⟨pub, hpub, hfind, rfl, rfl⟩, rfl⟩
  | createKey keyType seed =>
      constructor
      · intro h
        obtain ⟨⟨_, _⟩, hcreate, rfl⟩ := map_eq_ok.mp h
        obtain ⟨priv, hpriv, hfind, rfl, -⟩ := (SoftWallet.implCreateKey_eq_ok hwif).mp hcreate
        exact ⟨c.publicKey priv, by rw [key, hpriv]; rfl, by rw [hfind]; rfl, _,
          by rw [asksFor, hpriv]; rfl, rfl⟩
      · rintro ⟨pub, hkey, hfind, keys, hkeys, rfl⟩
        obtain ⟨priv, hpriv, rfl⟩ := Option.map_eq_some_iff.mp hkey
        rw [asksFor, hpriv] at hkeys
        cases hkeys
        exact map_eq_ok.mpr ⟨_, (SoftWallet.implCreateKey_eq_ok hwif).mpr
          ⟨priv, hpriv, hnone hfind, rfl, rfl⟩, rfl⟩

theorem run_cases (w : SoftWallet c) (disk : Disk) (files : Files) (change : Change c) :
    (w.isLocked ∨ ∀ w', change.impl w ≠ .ok w') ∧
        (∃ e, change.run w disk files = ⟨w, files, .error e⟩) ∨
      ¬ w.isLocked ∧ ∃ w', change.impl w = .ok w' ∧
        change.run w disk files = w'.saveWalletFile disk files := by
  have hsaved {α : Type} (locked : String) (made : Except Error (SoftWallet c × α)) :
      (w.isLocked ∨ ∀ w', Prod.fst <$> made ≠ .ok w') ∧
          (∃ e, (w.saved disk files locked made).discard = ⟨w, files, .error e⟩) ∨
        ¬ w.isLocked ∧ ∃ w', Prod.fst <$> made = .ok w' ∧
          (w.saved disk files locked made).discard = w'.saveWalletFile disk files := by
    obtain ⟨hmade, e, hsaved⟩ | ⟨hlocked, w', answer, hmade, hsaved⟩ :=
      w.saved_cases disk files locked made
    · refine .inl ⟨hmade.imp_right fun h w' hw' => ?_, e, by rw [hsaved]; rfl⟩
      obtain ⟨r, hr, -⟩ := map_eq_ok.mp hw'
      exact h r hr
    · refine .inr ⟨hlocked, w', by rw [hmade]; rfl, ?_⟩
      rw [hsaved]
      cases w'.saveWalletFile disk files with
      | mk object files result => cases result <;> rfl
  cases change with
  | importKey wifKey => exact hsaved _ _
  | removeKey key => exact hsaved _ _
  | createKey keyType seed => exact hsaved _ _

/-- A refused call is one that the wallet does not make the change for. -/
theorem refused_iff (hc : c.ReadsBack) {w : SoftWallet c} {change : Change c} :
    change.Refused w ↔ w.isLocked ∨ ∀ w', change.impl w ≠ .ok w' := by
  refine or_congr_right ?_
  constructor
  · intro h w' hw'
    obtain ⟨pub, hkey, hfind, -⟩ := (impl_eq_ok hc.wif).mp hw'
    exact h pub hkey hfind
  · intro h pub hkey hfind
    obtain ⟨keys, hkeys⟩ := exists_asksFor hkey w.keys
    exact h _ ((impl_eq_ok hc.wif).mpr ⟨pub, hkey, hfind, keys, hkeys, rfl⟩)

end Change

/-! ### The file -/

theorem SoftWallet.saveWalletFile_cases {w : SoftWallet c} (hlocked : ¬ w.isLocked) (disk : Disk)
    (files : Files) :
    disk.written (w.fileText w.keys) = none ∧
        (∃ e, (w.saveWalletFile disk files).result = .error e) ∧
        (w.saveWalletFile disk files).files = files ∨
      ∃ text, disk.written (w.fileText w.keys) = some text ∧
        (w.saveWalletFile disk files).result = .ok () ∧
        (w.saveWalletFile disk files).files w.walletFilename = some text := by
  unfold saveWalletFile fileText
  dsimp only
  rw [encryptKeys_of_unlocked hlocked]
  cases disk.written (c.toPrettyString ⟨c.aesEncrypt w.checksum ⟨w.checksum, w.keys⟩⟩) with
  | none => exact .inl ⟨rfl, ⟨_, rfl⟩, rfl⟩
  | some text => exact .inr ⟨text, rfl, rfl, Function.update_self ..⟩

theorem Disk.eq_take_of_written {disk : Disk} {text file : Bytes}
    (h : disk.written text = some file) (hne : file ≠ text) :
    ∃ count, count < text.length ∧ file = text.take count := by
  cases disk with
  | refuses => cases h
  | stopsAfter count =>
      cases h
      refine ⟨count, ?_, rfl⟩
      by_contra hle
      exact hne (List.take_of_length_le (not_lt.mp hle))
  | takesAll =>
      cases h
      exact absurd rfl hne

theorem fileKeys_fileText (hc : c.ReadsBack) (w : SoftWallet c)
    (keys : OrderedTable c.PublicKey c.PrivateKey) :
    fileKeys c w.checksum (some (w.fileText keys)) = some keys := by
  rw [fileKeys, SoftWallet.fileText, Option.bind_some, hc.json, Option.bind_some, hc.aes]
  rfl

theorem fileKeys_take (hc : c.ReadsBack) {w : SoftWallet c}
    {keys : OrderedTable c.PublicKey c.PrivateKey} {count : ℕ}
    (hcount : count < (w.fileText keys).length) :
    fileKeys c w.checksum (some ((w.fileText keys).take count)) = none := by
  rw [fileKeys, Option.bind_some, SoftWallet.fileText, hc.json_take _ _ hcount]
  rfl

/-! ### Atomicity -/

/-- A change is in memory and in the file, or the call throws and it is in neither, exactly if
it is refused or all of the text reaches the file. -/
theorem atomic_iff (hc : c.ReadsBack) (w : SoftWallet c) (disk : Disk) (files : Files)
    (change : Change c) :
    Atomic w files change (change.run w disk files) ↔
      change.Refused w ∨ Written w disk change := by
  rw [Change.refused_iff hc]
  obtain ⟨hrefused, e, hrun⟩ | ⟨hlocked, w', himpl, hrun⟩ := change.run_cases w disk files
  · rw [hrun]
    exact iff_of_true (.inr ⟨⟨e, rfl⟩, rfl, fun _ => rfl⟩) (.inl hrefused)
  · have hnot : ¬ (w.isLocked ∨ ∀ w', change.impl w ≠ .ok w') := by
      rintro (h | h)
      · exact hlocked h
      · exact h w' himpl
    obtain ⟨pub, hkey, hfind, keys, hkeys, rfl⟩ := (Change.impl_eq_ok hc.wif).mp himpl
    have hne : keys ≠ w.keys := by
      rintro rfl
      rw [Change.isSome_find_asksFor hkey hkeys, Bool.not_eq_eq_eq_not] at hfind
      exact absurd hfind.symm (Bool.not_ne_self _)
    have hwritten : Written w disk change ↔
        disk.written (w.fileText keys) = some (w.fileText keys) := by
      refine ⟨fun h => h keys hkeys, fun h keys' hkeys' => ?_⟩
      rw [hkeys] at hkeys'
      cases hkeys'
      exact h
    rw [or_iff_right hnot, hwritten, hrun, Atomic, SoftWallet.saveWalletFile_object,
      SoftWallet.encryptKeys_keys]
    obtain ⟨hdisk, ⟨e, he⟩, -⟩ | ⟨text, hdisk, hresult, hfile⟩ :=
      SoftWallet.saveWalletFile_cases (w := { w with keys }) hlocked disk files
    · have hdisk : disk.written (w.fileText keys) = none := hdisk
      refine iff_of_false ?_ (by rw [hdisk]; exact Option.some_ne_none _ ∘ Eq.symm)
      rintro (⟨hok, -⟩ | ⟨-, hkeys, -⟩)
      · rw [he] at hok
        cases hok
      · exact hne hkeys
    · have hdisk : disk.written (w.fileText keys) = some text := hdisk
      have hfile : (({ w with keys } : SoftWallet c).saveWalletFile disk files).files
          w.walletFilename = some text := hfile
      rw [hfile, hdisk, Option.some.injEq]
      constructor
      · rintro (⟨-, -, hholds⟩ | ⟨-, hkeys, -⟩)
        · by_contra htext
          obtain ⟨count, hcount, rfl⟩ := Disk.eq_take_of_written hdisk htext
          rw [fileKeys_take hc hcount] at hholds
          cases hholds
        · exact absurd hkeys hne
      · rintro rfl
        exact .inl ⟨hresult, hkeys, fileKeys_fileText hc w keys⟩

/-! ### Keys of one byte -/

namespace Byte

def flatten : List (Fin 256 × Fin 256) → Bytes
  | [] => []
  | p :: rows => .ofFin p.1 :: .ofFin p.2 :: flatten rows

def pairs : Bytes → Option (List (Fin 256 × Fin 256))
  | [] => some []
  | [_] => none
  | k :: v :: rest => (pairs rest).map ((k.toFin, v.toFin) :: ·)

theorem pairs_flatten (rows : List (Fin 256 × Fin 256)) : pairs (flatten rows) = some rows := by
  induction rows with
  | nil => rfl
  | cons p rows ih =>
      rw [flatten, pairs, ih]
      rfl

/-- A byte after a mark, and so on, up to a last one. -/
def marked : Bytes → Bytes
  | [] => [0]
  | b :: rest => 1 :: b :: marked rest

def unmarked : Bytes → Option Bytes
  | [] => none
  | [mark] => if mark = 0 then some [] else none
  | mark :: b :: rest => if mark = 1 then (unmarked rest).map (b :: ·) else none

theorem unmarked_marked (bytes : Bytes) : unmarked (marked bytes) = some bytes := by
  induction bytes with
  | nil => rfl
  | cons b bytes ih =>
      rw [marked, unmarked, if_pos rfl, ih]
      rfl

theorem unmarked_take (bytes : Bytes) {count : ℕ} (h : count < (marked bytes).length) :
    unmarked ((marked bytes).take count) = none := by
  induction bytes generalizing count with
  | nil =>
      obtain rfl := Nat.lt_one_iff.mp h
      rfl
  | cons b bytes ih =>
      obtain _ | _ | count := count
      · rfl
      · rfl
      · rw [marked, List.take_succ_cons, List.take_succ_cons, unmarked, if_pos rfl,
          ih (by simpa [marked] using h)]
        rfl

def table (rows : List (Fin 256 × Fin 256)) : Option (OrderedTable (Fin 256) (Fin 256)) :=
  if h : rows.Pairwise (fun a b => a.1 < b.1) then some ⟨rows, h⟩ else none

def decrypt (hash : Fin 256) : Bytes → Option (PlainKeys (Fin 256) (Fin 256) (Fin 256))
  | key :: checksum :: rest =>
    if key.toFin = hash then ((pairs rest).bind table).map (⟨checksum.toFin, ·⟩) else none
  | _ => none

theorem decrypt_encrypt (hash hash' : Fin 256) (pk : PlainKeys (Fin 256) (Fin 256) (Fin 256)) :
    decrypt hash (.ofFin hash' :: .ofFin pk.checksum :: flatten pk.keys.rows) =
      if hash' = hash then some pk else none := by
  have htable : table pk.keys.rows = some pk.keys := dif_pos pk.keys.sorted
  rw [decrypt, pairs_flatten, Option.bind_some, htable]
  rfl

/-- The key that has so many characters. -/
def read (text : String) : Option (Fin 256) :=
  if h : text.length < 256 then some ⟨text.length, h⟩ else none

theorem read_replicate (key : Fin 256) :
    read (String.ofList (List.replicate key 'k')) = some key := by
  have hlength : (String.ofList (List.replicate key 'k')).length = key := by simp
  have hlt : (String.ofList (List.replicate key 'k')).length < 256 := by
    rw [hlength]
    exact key.isLt
  rw [read, dif_pos hlt, Option.some.injEq]
  exact Fin.ext hlength

end Byte

/-- Keys and hashes of one byte; a cipher text starts with the hash that it is for. -/
def bytePrimitives : Primitives where
  PublicKey := Fin 256
  PrivateKey := Fin 256
  Hash := Fin 256
  Digest := ℕ
  Signature := Fin 256 × ℕ
  Transaction := ℕ
  ChainId := ℕ
  Seed := Fin 256
  noHash := 0
  sha512 text := ⟨1 + text.length % 255, by omega⟩
  generateK1 seed := seed
  generateR1 seed := seed
  privateKey := Byte.read
  wif key := String.ofList (List.replicate key 'k')
  publicKey key := key
  readPublicKey := Byte.read
  publicKeyText key := String.ofList (List.replicate key 'k')
  sign key digest := (key, digest)
  sigDigest transaction chain := transaction + chain
  aesEncrypt hash pk := .ofFin hash :: .ofFin pk.checksum :: Byte.flatten pk.keys.rows
  aesDecrypt := Byte.decrypt
  toPrettyString data := Byte.marked data.cipherKeys
  readWalletData text := (Byte.unmarked text).map .mk

theorem bytePrimitives_decrypt (hash hash' : Fin 256)
    (pk : PlainKeys (Fin 256) (Fin 256) (Fin 256)) :
    bytePrimitives.aesDecrypt hash (bytePrimitives.aesEncrypt hash' pk) =
      if hash' = hash then some pk else none :=
  Byte.decrypt_encrypt hash hash' pk

theorem bytePrimitives_readsBack : bytePrimitives.ReadsBack where
  json data := by
    show (Byte.unmarked (Byte.marked data.cipherKeys)).map WalletData.mk = some data
    rw [Byte.unmarked_marked]
    rfl
  json_take data count h := by
    show (Byte.unmarked ((Byte.marked data.cipherKeys).take count)).map WalletData.mk = none
    rw [Byte.unmarked_take data.cipherKeys h]
    rfl
  aes key pk := (bytePrimitives_decrypt key key pk).trans (if_pos rfl)
  wif priv := Byte.read_replicate priv

/-- An unlocked wallet without keys. -/
def emptyWallet : SoftWallet bytePrimitives :=
  { walletFilename := "w", wallet := ⟨[]⟩, keys := .empty, checksum := (1 : Fin 256) }

/-- The law at a call that writes all of its file. -/
theorem atomic_iff_imported :
    Atomic emptyWallet (fun _ => none) (.importKey "kk")
        (Change.run emptyWallet .takesAll (fun _ => none) (.importKey "kk")) ↔
      Change.Refused emptyWallet (.importKey "kk") ∨
        Written emptyWallet .takesAll (.importKey "kk") :=
  atomic_iff bytePrimitives_readsBack emptyWallet .takesAll (fun _ => none) (.importKey "kk")

/-- The file cannot be opened: the call throws, and the key stays in memory. -/
theorem atomic_fails :
    ¬ ∀ (c : Primitives), c.ReadsBack → ∀ (w : SoftWallet c) (disk : Disk) (files : Files)
      (change : Change c), Atomic w files change (change.run w disk files) := by
  intro hall
  have h := hall bytePrimitives bytePrimitives_readsBack emptyWallet .refuses (fun _ => none)
    (.importKey "kk")
  obtain ⟨hok, -⟩ | ⟨-, hkeys, -⟩ := h
  · cases hok
  · exact absurd (congrArg (fun t => t.rows.length) hkeys) (by decide)

end Xidata.Wallet
