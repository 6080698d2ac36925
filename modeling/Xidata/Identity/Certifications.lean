import Xidata.Eosiolib.FixedKey
import Xidata.Identity.Contract
import Xidata.Library.Rollback

/-!
The certifications of one identity.  The flag is part of the key of a row, and the trust in a
certifier changes while its rows stay; a row is looked for under the flag of the moment and
under the other one.  So a certifier has one row at most for a property, and what the action
writes for a property is what its last value says.
-/

namespace Xidata.Identity

open Eosiolib (AccountName Bytes FixedKey Word)

variable {t t' : CertsTable} {property trusted certifier : UInt64} {id : UInt64} {row : CertRow}

@[simp] theorem eosioAssert_eq_ok {test : Prop} [Decidable test] {msg : String} {u : Unit} :
    eosioAssert test msg = .ok u ↔ test := by
  unfold eosioAssert
  split <;> simp [*]

@[simp] theorem requireAuth_eq_ok {c : Ctx} {account : AccountName} {u : Unit} :
    requireAuth c account = .ok u ↔ account ∈ c.auth := by
  unfold requireAuth
  split <;> simp [*]

/-! ### The key of a row -/

/-- `certrow::key` as the index has it. -/
def CertRow.key256 (property trusted certifier : UInt64) : Except String (FixedKey 32) :=
  FixedKey.makeFromWordSequence (w := 8) property.toBitVec [trusted.toBitVec, certifier.toBitVec]

def twoWords (x y : UInt64) : Word :=
  (0 ||| x.toBitVec.setWidth 128) <<< 64 ||| y.toBitVec.setWidth 128

theorem toNat_twoWords (x y : UInt64) : (twoWords x y).toNat = x.toNat * 2 ^ 64 + y.toNat := by
  have hx : (0 ||| x.toBitVec.setWidth 128 : Word).toNat = x.toNat := by
    have hlt : x.toBitVec.toNat < 2 ^ 128 := x.toNat_lt.trans (by decide)
    rw [BitVec.toNat_or, BitVec.toNat_setWidth, Nat.mod_eq_of_lt hlt]
    exact Nat.zero_or _
  have hshift := FixedKey.toNat_shiftLeft_bytes (j := 8) (n := 8) hx x.toNat_lt (by decide)
  exact FixedKey.toNat_push (w := 8) y.toBitVec hshift (by decide)

theorem twoWords_lt_iff {x y x' y' : UInt64} :
    twoWords x y < twoWords x' y' ↔ x < x' ∨ x = x' ∧ y < y' := by
  have hy := y.toNat_lt
  have hy' := y'.toNat_lt
  rw [BitVec.lt_def, toNat_twoWords, toNat_twoWords, UInt64.lt_iff_toNat_lt,
    UInt64.lt_iff_toNat_lt, ← UInt64.toNat_inj]
  omega

theorem twoWords_inj {x y x' y' : UInt64} :
    twoWords x y = twoWords x' y' ↔ x = x' ∧ y = y' := by
  have hy := y.toNat_lt
  have hy' := y'.toNat_lt
  rw [← BitVec.toNat_inj, toNat_twoWords, toNat_twoWords, ← UInt64.toNat_inj, ← UInt64.toNat_inj]
  omega

theorem CertRow.key256_eq (property trusted certifier : UInt64) :
    ∃ c, key256 property trusted certifier = .ok c ∧
      c.data = [twoWords property trusted, twoWords certifier 0] := by
  have hzero : (0 ||| certifier.toBitVec.setWidth 128 : Word) <<< 64 = twoWords certifier 0 := by
    rw [twoWords, UInt64.toBitVec_zero, BitVec.setWidth_zero, BitVec.or_zero]
  refine ⟨(((FixedKey.zero 32).set 0 (twoWords property trusted)).set 1
    (twoWords certifier 0)), ?_, rfl⟩
  rw [← hzero]
  simp [key256, FixedKey.makeFromWordSequence, FixedKey.setFromWordSequence, FixedKey.setWord,
    twoWords]

/-- A key has the words one after another, and compares like them. -/
theorem CertRow.key256_lt_iff (property trusted certifier property' trusted' certifier' : UInt64) :
    ∃ c1 c2, key256 property trusted certifier = .ok c1 ∧
      key256 property' trusted' certifier' = .ok c2 ∧
      (c1 < c2 ↔ key property trusted certifier < key property' trusted' certifier') := by
  obtain ⟨c1, h1, hdata1⟩ := key256_eq property trusted certifier
  obtain ⟨c2, h2, hdata2⟩ := key256_eq property' trusted' certifier'
  refine ⟨c1, c2, h1, h2, ?_⟩
  change c1.data < c2.data ↔ _
  have hzero : ¬(0 : UInt64) < 0 := by decide
  simp only [hdata1, hdata2, List.cons_lt_cons_iff, twoWords_lt_iff, twoWords_inj, key,
    Prod.Lex.toLex_lt_toLex, List.not_lt_nil, hzero, and_false, or_false]
  tauto
/-! ### Looking a row up -/

theorem CertRow.getKey_eq_iff :
    row.getKey = CertRow.key property trusted certifier ↔
      row.property = property ∧ row.trusted = trusted ∧ row.certifier = certifier := by
  simp [getKey, key]

/-- The row not below a key has the key, or none has. -/
theorem lookup_eq : lookup t property trusted certifier =
    t.firstBy CertRow.getKey fun k => (ofLex k).1 = CertRow.key property trusted certifier := by
  have hfirst := OrderedTable.firstBy_eq_filter t CertRow.getKey
    (CertRow.key property trusted certifier)
  have hkey : (fun itr : UInt64 × CertRow => decide (itr.2.property = property ∧
      itr.2.trusted = trusted ∧ itr.2.certifier = certifier)) =
      fun itr => decide (itr.2.getKey = CertRow.key property trusted certifier) :=
    funext fun itr => decide_eq_decide.mpr CertRow.getKey_eq_iff.symm
  rw [lookup, hkey]
  convert hfirst.symm

theorem of_lookup_eq_some (h : lookup t property trusted certifier = some (id, row)) :
    t.find id = some row ∧
      row.property = property ∧ row.trusted = trusted ∧ row.certifier = certifier := by
  rw [lookup_eq] at h
  refine ⟨OrderedTable.find_of_firstBy h, ?_⟩
  have hkey := List.find?_some (p := fun q : UInt64 × CertRow =>
    decide (q.2.getKey = CertRow.key property trusted certifier)) h
  exact CertRow.getKey_eq_iff.mp (of_decide_eq_true hkey)

theorem of_lookup_eq_none (h : lookup t property trusted certifier = none)
    (hfind : t.find id = some row) :
    ¬(row.property = property ∧ row.trusted = trusted ∧ row.certifier = certifier) := by
  rw [lookup_eq] at h
  intro hrow
  have hnone := List.find?_eq_none.mp h (id, row) (OrderedTable.mem_index.mpr hfind)
  exact hnone (decide_eq_true (CertRow.getKey_eq_iff.mpr hrow))

/-! ### One row each -/

/-- A certifier has one row at most for a property. -/
def OneRowEach (t : CertsTable) : Prop :=
  ∀ id id' row row', t.find id = some row → t.find id' = some row' →
    row.property = row'.property → row.certifier = row'.certifier → id = id'

/-- And it is looked for under the right flags. -/
structure WellKept (t : CertsTable) : Prop where
  one : OneRowEach t
  flags : ∀ id row, t.find id = some row → ∃ b, row.trusted = flag b

/-- The certifier certifies the property with these data. -/
def Certified (t : CertsTable) (property certifier : UInt64) (data : Bytes) : Prop :=
  ∃ id row, t.find id = some row ∧ row.property = property ∧ row.certifier = certifier ∧
    row.data = data

/-- What a value comes to: the row of the pair is gone, or replaced by one with new data. -/
inductive Written (t : CertsTable) (property certifier : UInt64) :
    Option Bytes → CertsTable → Prop
  | put {t' : CertsTable} (id : UInt64) (row : CertRow) (hproperty : row.property = property)
      (hcertifier : row.certifier = certifier) (hflag : ∃ b, row.trusted = flag b)
      (hfind : ∀ id' row', t'.find id' = some row' ↔ id' = id ∧ row' = row ∨ id' ≠ id ∧
        t.find id' = some row' ∧ ¬(row'.property = property ∧ row'.certifier = certifier))
      (hfree : ∀ row', t.find id = some row' →
        row'.property = property ∧ row'.certifier = certifier) :
      Written t property certifier (some row.data) t'
  | drop {t' : CertsTable}
      (hfind : ∀ id row, t'.find id = some row ↔
        t.find id = some row ∧ ¬(row.property = property ∧ row.certifier = certifier)) :
      Written t property certifier none t'

theorem Written.wellKept {data : Option Bytes} (h : Written t property certifier data t')
    (ht : WellKept t) : WellKept t' := by
  cases h with
  | put id row hproperty hcertifier hflag hfind hfree =>
      refine ⟨fun i j r r' hr hr' hp hc => ?_, fun i r hr => ?_⟩
      · obtain ⟨rfl, rfl⟩ | ⟨hi, hr, hother⟩ := (hfind i r).mp hr
        · obtain ⟨rfl, rfl⟩ | ⟨hj, hr', hother⟩ := (hfind j r').mp hr'
          · rfl
          · exact absurd ⟨hp ▸ hproperty, hc ▸ hcertifier⟩ hother
        · obtain ⟨rfl, rfl⟩ | ⟨hj, hr', hother'⟩ := (hfind j r').mp hr'
          · exact absurd ⟨hp.trans hproperty, hc.trans hcertifier⟩ hother
          · exact ht.one i j r r' hr hr' hp hc
      · obtain ⟨rfl, rfl⟩ | ⟨hi, hr, hother⟩ := (hfind i r).mp hr
        · exact hflag
        · exact ht.flags i r hr
  | drop hfind =>
      refine ⟨fun i j r r' hr hr' => ?_, fun i r hr => ht.flags i r ((hfind i r).mp hr).1⟩
      exact ht.one i j r r' ((hfind i r).mp hr).1 ((hfind j r').mp hr').1

theorem Written.certified_self {data : Option Bytes} (h : Written t property certifier data t')
    (d : Bytes) : Certified t' property certifier d ↔ data = some d := by
  cases h with
  | put id row hproperty hcertifier hflag hfind hfree =>
      rw [Option.some.injEq]
      constructor
      · rintro ⟨i, r, hr, hp, hc, rfl⟩
        obtain ⟨rfl, rfl⟩ | ⟨-, -, hother⟩ := (hfind i r).mp hr
        · rfl
        · exact absurd ⟨hp, hc⟩ hother
      · rintro rfl
        exact ⟨id, row, (hfind id row).mpr (.inl ⟨rfl, rfl⟩), hproperty, hcertifier, rfl⟩
  | drop hfind =>
      refine iff_of_false ?_ (by simp)
      rintro ⟨i, r, hr, hp, hc, -⟩
      exact ((hfind i r).mp hr).2 ⟨hp, hc⟩

theorem Written.certified_of_ne {data : Option Bytes} (h : Written t property certifier data t')
    {property' certifier' : UInt64} (hne : ¬(property' = property ∧ certifier' = certifier))
    (d : Bytes) : Certified t' property' certifier' d ↔ Certified t property' certifier' d := by
  cases h with
  | put id row hproperty hcertifier hflag hfind hfree =>
      constructor
      · rintro ⟨i, r, hr, rfl, rfl, hd⟩
        obtain ⟨rfl, rfl⟩ | ⟨-, hr, -⟩ := (hfind i r).mp hr
        · exact absurd ⟨hproperty, hcertifier⟩ hne
        · exact ⟨i, r, hr, rfl, rfl, hd⟩
      · rintro ⟨i, r, hr, rfl, rfl, hd⟩
        refine ⟨i, r, (hfind i r).mpr (.inr ⟨?_, hr, hne⟩), rfl, rfl, hd⟩
        rintro rfl
        exact hne (hfree r hr)
  | drop hfind =>
      constructor
      · rintro ⟨i, r, hr, hrow⟩
        exact ⟨i, r, ((hfind i r).mp hr).1, hrow⟩
      · rintro ⟨i, r, hr, rfl, rfl, hd⟩
        exact ⟨i, r, (hfind i r).mpr ⟨hr, hne⟩, rfl, rfl, hd⟩

/-! ### Writing under both flags -/

/-- No two rows have the same key. -/
def KeysUnique (t : CertsTable) : Prop :=
  ∀ id id' row row', t.find id = some row → t.find id' = some row' →
    row.getKey = row'.getKey → id = id'

theorem WellKept.keysUnique (ht : WellKept t) : KeysUnique t := by
  intro id id' row row' hrow hrow' hkey
  have hparts := CertRow.getKey_eq_iff.mp hkey
  exact ht.one id id' row row' hrow hrow' hparts.1 hparts.2.2

theorem Writing.find_erase {w : Writing} (h : KeysUnique w.certs) :
    (w.erase property trusted certifier).certs.find id = some row ↔
      w.certs.find id = some row ∧ row.getKey ≠ CertRow.key property trusted certifier := by
  unfold Writing.erase
  cases hlookup : lookup w.certs property trusted certifier with
  | none =>
      refine ⟨fun hrow => ⟨hrow, fun hkey => ?_⟩, fun hrow => hrow.1⟩
      exact of_lookup_eq_none hlookup hrow (CertRow.getKey_eq_iff.mp hkey)
  | some itr =>
      obtain ⟨hitr, hkey⟩ := of_lookup_eq_some hlookup
      dsimp only
      rw [OrderedTable.find_erase]
      split
      · rename_i hid
        refine iff_of_false (by simp) ?_
        rintro ⟨hrow, hne⟩
        rw [hid, hitr] at hrow
        cases hrow
        exact hne (CertRow.getKey_eq_iff.mpr hkey)
      · rename_i hid
        refine ⟨fun hrow => ⟨hrow, fun hsame => hid ?_⟩, fun hrow => hrow.1⟩
        exact h id itr.1 row itr.2 hrow hitr (hsame.trans (CertRow.getKey_eq_iff.mpr hkey).symm)

theorem key_flag_iff (ht : WellKept t) (hrow : t.find id = some row) (b : Bool) :
    (row.getKey = CertRow.key property (flag b) certifier ∨
        row.getKey = CertRow.key property (flag !b) certifier) ↔
      row.property = property ∧ row.certifier = certifier := by
  obtain ⟨b', hflag⟩ := ht.flags id row hrow
  rw [CertRow.getKey_eq_iff, CertRow.getKey_eq_iff, hflag]
  cases b <;> cases b' <;> simp [flag]

/-- The row of a key is new or has new data, and no other is touched. -/
structure Placed (t : CertsTable) (k : CertKey) (id : UInt64) (row : CertRow) (t' : CertsTable) :
    Prop where
  key : row.getKey = k
  find : ∀ id' row', t'.find id' = some row' ↔
    id' = id ∧ row' = row ∨ id' ≠ id ∧ t.find id' = some row'
  before : ∀ row', t.find id = some row' → row'.getKey = k
  only : ∀ id' row', t.find id' = some row' → row'.getKey = k → id' = id

theorem Placed.keysUnique {k : CertKey} (h : Placed t k id row t') (ht : KeysUnique t) :
    KeysUnique t' := by
  intro i j r r' hr hr' hkey
  obtain ⟨rfl, rfl⟩ | ⟨hi, hr⟩ := (h.find i r).mp hr
  · obtain ⟨rfl, rfl⟩ | ⟨hj, hr'⟩ := (h.find j r').mp hr'
    · rfl
    · exact (h.only j r' hr' (hkey.symm.trans h.key)).symm
  · obtain ⟨rfl, rfl⟩ | ⟨hj, hr'⟩ := (h.find j r').mp hr'
    · exact h.only i r hr (hkey.trans h.key)
    · exact ht i j r r' hr hr' hkey

theorem placed_set {k : CertKey} (hkey : row.getKey = k)
    (hbefore : ∀ row', t.find id = some row' → row'.getKey = k)
    (honly : ∀ id' row', t.find id' = some row' → row'.getKey = k → id' = id) :
    Placed t k id row (t.set id row) := by
  refine ⟨hkey, fun id' row' => ?_, hbefore, honly⟩
  rw [OrderedTable.find_set]
  split
  · rename_i hid
    simp [hid, eq_comm]
  · rename_i hid
    simp [hid]

theorem Writing.emplace_eq_ok {w w' : Writing} (h : w.emplace row = .ok w') :
    ∃ id, w.certs.find id = none ∧ w'.certs = w.certs.set id row ∧ w'.accounts = w.accounts := by
  simp only [emplace, Rollback.bind_eq_ok, eosioAssert_eq_ok, Rollback.pure_eq_ok] at h
  obtain ⟨id, -, _, hnone, rfl⟩ := h
  exact ⟨id, hnone, rfl, rfl⟩

/-- A row that is placed under one flag, and then none under the other. -/
theorem Placed.written {w w' : Writing} {b : Bool} (ht : WellKept w.certs)
    (h : Placed w.certs (CertRow.key property (flag b) certifier) id row w'.certs) :
    Written w.certs property certifier (some row.data)
      (w'.erase property (flag !b) certifier).certs := by
  have hparts := CertRow.getKey_eq_iff.mp h.key
  have hflag : row.getKey ≠ CertRow.key property (flag !b) certifier := by
    rw [ne_eq, CertRow.getKey_eq_iff, hparts.2.1]
    cases b <;> simp [flag]
  refine .put id row hparts.1 hparts.2.2 ⟨b, hparts.2.1⟩ (fun id' row' => ?_) fun row' hrow => ?_
  · rw [Writing.find_erase (h.keysUnique ht.keysUnique), h.find]
    constructor
    · rintro ⟨⟨rfl, rfl⟩ | ⟨hid, hrow⟩, hne⟩
      · exact .inl ⟨rfl, rfl⟩
      · refine .inr ⟨hid, hrow, fun hpair => ?_⟩
        obtain hkey | hkey := (key_flag_iff ht hrow b).mpr hpair
        · exact hid (h.only id' row' hrow hkey)
        · exact hne hkey
    · rintro (⟨rfl, rfl⟩ | ⟨hid, hrow, hpair⟩)
      · exact ⟨.inl ⟨rfl, rfl⟩, hflag⟩
      · exact ⟨.inr ⟨hid, hrow⟩, fun hkey => hpair ((key_flag_iff ht hrow b).mp (.inr hkey))⟩
  · exact (key_flag_iff ht hrow b).mp (.inl (h.before row' hrow))

theorem written_erase {w : Writing} (ht : WellKept w.certs) (b : Bool) :
    Written w.certs property certifier none
      ((w.erase property (flag b) certifier).erase property (flag !b) certifier).certs := by
  have hfirst : ∀ id row, (w.erase property (flag b) certifier).certs.find id = some row ↔ _ :=
    fun id row => Writing.find_erase ht.keysUnique
  have hunique : KeysUnique (w.erase property (flag b) certifier).certs := fun i j r r' hr hr' =>
    ht.keysUnique i j r r' ((hfirst i r).mp hr).1 ((hfirst j r').mp hr').1
  refine .drop fun id row => ?_
  rw [Writing.find_erase hunique, hfirst, and_assoc]
  refine and_congr_right fun hrow => ?_
  rw [← key_flag_iff ht hrow b, not_or]

theorem Writing.accounts_erase (w : Writing) (property trusted certifier : UInt64) :
    (w.erase property trusted certifier).accounts = w.accounts := by
  unfold Writing.erase
  split <;> rfl

/-! ### One value -/

/-- What the accounts table becomes: only a value about the certifier itself changes it. -/
def claimAfter (identity : IdentityName) (certifier : AccountName) (value : CertValue)
    (accounts : OrderedTable AccountName IdentityName) : OrderedTable AccountName IdentityName :=
  if value.property = owner ∧ accountOf value.data = certifier then
    if value.confidence ≠ 0 then accounts.set certifier identity else accounts.erase certifier
  else accounts

theorem ownerAccount_eq_ok {value : CertValue} {acnt : AccountName} :
    ownerAccount value = .ok acnt ↔ value.data.length = 8 ∧ accountOf value.data = acnt := by
  simp [ownerAccount]

/-- What an owner value does besides its row. -/
theorem onOwner_eq_ok {w w' : Writing} {value : CertValue}
    {f : AccountName → OrderedTable AccountName IdentityName}
    (h : (if value.property = owner then ownerAccount value >>= fun acnt =>
        if certifier = acnt then pure { w with accounts := f acnt } else pure w
      else pure w) = (Except.ok w' : Result Writing)) :
    (value.property = owner → value.data.length = 8) ∧ w'.certs = w.certs ∧
      w'.accounts = if value.property = owner ∧ accountOf value.data = certifier then f certifier
        else w.accounts := by
  split at h
  · rename_i howner
    simp only [Rollback.bind_eq_ok, ownerAccount_eq_ok] at h
    obtain ⟨acnt, ⟨hlength, rfl⟩, h⟩ := h
    refine ⟨fun _ => hlength, ?_⟩
    split at h
    · rename_i hself
      cases h
      exact ⟨rfl, by rw [if_pos ⟨howner, hself.symm⟩, hself]⟩
    · rename_i hself
      cases h
      exact ⟨rfl, by rw [if_neg fun hboth => hself hboth.2.symm]⟩
  · rename_i howner
    cases h
    exact ⟨fun hsame => absurd hsame howner, rfl, by rw [if_neg fun hboth => howner hboth.1]⟩

theorem put_placed {w w' : Writing} {value : CertValue} (ht : KeysUnique w.certs)
    (h : w.put value trusted certifier = .ok w') :
    ∃ id row, row.data = value.data ∧ w'.accounts = w.accounts ∧
      Placed w.certs (CertRow.key value.property trusted certifier) id row w'.certs := by
  unfold Writing.put at h
  cases hlookup : lookup w.certs value.property trusted certifier with
  | some itr =>
      rw [hlookup] at h
      cases h
      obtain ⟨hitr, hparts⟩ := of_lookup_eq_some hlookup
      have hkey := CertRow.getKey_eq_iff.mpr hparts
      refine ⟨itr.1, { itr.2 with
        confidence := value.confidence, type := value.type, data := value.data }, rfl, rfl, ?_⟩
      refine placed_set hkey (fun row' hrow => ?_) fun id' row' hrow hsame => ?_
      · rw [hitr] at hrow
        cases hrow
        exact hkey
      · exact ht id' itr.1 row' itr.2 hrow hitr (hsame.trans hkey.symm)
  | none =>
      rw [hlookup] at h
      obtain ⟨id, hnone, hset, haccounts⟩ := Writing.emplace_eq_ok h
      refine ⟨id, { value with trusted := trusted, certifier := certifier }, rfl, haccounts, ?_⟩
      rw [hset]
      refine placed_set rfl (fun row' hrow => ?_) fun id' row' hrow hsame => ?_
      · rw [hnone] at hrow
        cases hrow
      · exact absurd (CertRow.getKey_eq_iff.mp hsame) (of_lookup_eq_none hlookup hrow)

theorem certValue_spec {identity : IdentityName} {b : Bool} {w w' : Writing} {value : CertValue}
    (ht : WellKept w.certs) (h : certValue identity certifier b w value = .ok w') :
    Written w.certs value.property certifier
        (if value.confidence ≠ 0 then some value.data else none) w'.certs ∧
      (value.property = owner → value.data.length = 8) ∧
      w'.accounts = claimAfter identity certifier value w.accounts := by
  unfold certValue at h
  unfold claimAfter
  by_cases hconfidence : value.confidence ≠ 0
  · rw [if_pos hconfidence] at h
    simp only [if_pos hconfidence]
    rw [Rollback.bind_eq_ok] at h
    obtain ⟨-, -, h⟩ := h
    rw [Rollback.bind_eq_ok] at h
    obtain ⟨w₁, hput, h⟩ := h
    obtain ⟨hlength, hcerts, haccounts⟩ := onOwner_eq_ok h
    obtain ⟨id, row, hdata, hsame, hplaced⟩ := put_placed ht.keysUnique hput
    have hwritten := hplaced.written ht
    rw [hdata] at hwritten
    rw [hcerts, haccounts, Writing.accounts_erase, hsame]
    exact ⟨hwritten, hlength, rfl⟩
  · rw [if_neg hconfidence] at h
    simp only [if_neg hconfidence]
    obtain ⟨hlength, hcerts, haccounts⟩ := onOwner_eq_ok h
    rw [hcerts, haccounts, Writing.accounts_erase, Writing.accounts_erase]
    exact ⟨written_erase ht b, hlength, rfl⟩

end Xidata.Identity
