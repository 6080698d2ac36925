import Xidata.History.Plugin
import Xidata.Library.ByteCode
import Xidata.Library.PrefixSearch

/-!
Looking up a transaction by the hex digits that its id begins with: among the rows of the
recorded actions, which are ordered by the bytes of the ids, or else in the block that the
query names.
-/

namespace Xidata.History

instance uint8LinearOrder : LinearOrder UInt8 where
  le_refl := UInt8.le_refl
  le_trans _ _ _ := UInt8.le_trans
  le_antisymm _ _ := UInt8.le_antisymm
  le_total := UInt8.le_total
  lt_iff_le_not_ge a b := by
    rw [UInt8.not_le]
    exact ⟨fun h => ⟨UInt8.le_of_lt h, h⟩, And.right⟩
  toDecidableLE := inferInstance

/-! ### The index by transaction ids -/

/-- The bytes of an id, `id.data()`. -/
def idData (id : TransactionId) : List UInt8 := (ByteCode.littleEndian 32 id.toNat).reverse

/-- The trace is kept as it was packed. -/
structure ActionHistoryObject where
  actionSequenceNum : UInt64
  packedActionTrace : List UInt8
  blockNum : UInt32
  blockTime : UInt32
  trxId : TransactionId
  deriving DecidableEq

/-- `by_trx_id`: by the bytes of the ids, and by the sequence numbers where these are the same. -/
def byTrxId (row : ActionHistoryObject) : List UInt8 ×ₗ UInt64 :=
  toLex (idData row.trxId, row.actionSequenceNum)

structure ActionHistoryIndex where
  rows : List ActionHistoryObject
  sorted : rows.Pairwise fun a b => byTrxId a < byTrxId b

/-! ### The query -/

/-- A receipt of a block has the transaction packed with it, or its id only. -/
inductive ReceiptTrx
  | packed (pt : List UInt8)
  | id (id : TransactionId)
  deriving DecidableEq

structure TransactionReceipt where
  header : List UInt8 := []
  trx : ReceiptTrx
  deriving DecidableEq

structure Block where
  timestamp : UInt32
  transactions : List TransactionReceipt

/-- What `get_transaction` calls outside of the plugin, with nothing where it throws: the
reading of an id from hex digits, the chain, and what it shows of a packed trace or a packed
transaction. -/
structure ChainView (V : Type) where
  transactionId : List Char → Option TransactionId
  lastIrreversibleBlockNum : UInt32
  fetchBlockByNumber : UInt32 → Option (Option Block)
  pendingBlock : Option Block
  metadataId : List UInt8 → Option TransactionId
  showTransaction : List UInt8 → Option V
  showTrace : List UInt8 → Option V

structure GetTransactionParams where
  id : List Char
  blockNumHint : Option UInt32 := none

structure GetTransactionResult (V : Type) where
  id : TransactionId
  trx : Option (TransactionReceipt × Option V) := none
  blockTime : UInt32
  blockNum : UInt32
  lastIrreversibleBlock : UInt32
  traces : List V := []

/-- Why no transaction is returned; `thrown` stands for the exceptions from outside. -/
inductive QueryFailure
  | transactionIdType | txNotFound | thrown
  deriving DecidableEq

/-- The comparison of the given digits, two for a byte and an odd one for half a byte. -/
def txnIdMatched (inputId : TransactionId) (inputIdLength : ℕ) (id : TransactionId) : Bool :=
  let inputIdSize := inputIdLength / 2
  let wholeBytePrefixMatches := (idData inputId).take inputIdSize = (idData id).take inputIdSize
  if ¬ wholeBytePrefixMatches ∨ inputIdLength % 2 = 0 then wholeBytePrefixMatches
  else (idData inputId)[inputIdSize]?.getD 0 &&& 0xF0 = (idData id)[inputIdSize]?.getD 0 &&& 0xF0

section Query

variable {V : Type} (chain : ChainView V)

/-- The first receipt of a transaction that is looked for, and its id. -/
def findReceipt (wanted : TransactionId → Bool) : List TransactionReceipt →
    Option (Option (TransactionId × (TransactionReceipt × Option V)))
  | [] => some none
  | receipt :: receipts =>
    match receipt.trx with
    | .packed pt => do
      let id ← chain.metadataId pt
      if wanted id then
        let trx ← chain.showTransaction pt
        pure (some (id, receipt, some trx))
      else findReceipt wanted receipts
    | .id id => if wanted id then some (some (id, receipt, none)) else findReceipt wanted receipts

/-- The receipt of a transaction in its block, or in the pending one. -/
def receiptOf (id : TransactionId) (blockNum : UInt32) :
    Option (Option (TransactionReceipt × Option V)) := do
  let fetched ← chain.fetchBlockByNumber blockNum
  match fetched.or chain.pendingBlock with
  | none => pure none
  | some blk =>
    (fun found => found.map Prod.snd) <$> findReceipt chain (fun i => i = id) blk.transactions

/-- The transaction of the row where the iterator stands. -/
def inHistory (row : ActionHistoryObject) (itr : List ActionHistoryObject) :
    Option (GetTransactionResult V) := do
  let traces ← (itr.takeWhile fun r => r.trxId = row.trxId).mapM fun r =>
    chain.showTrace r.packedActionTrace
  let trx ← receiptOf chain row.trxId row.blockNum
  pure { id := row.trxId, trx := trx, blockTime := row.blockTime, blockNum := row.blockNum,
         lastIrreversibleBlock := chain.lastIrreversibleBlockNum, traces := traces }

/-- The first transaction of the block with such an id. -/
def inBlock (wanted : TransactionId → Bool) (hint : UInt32) :
    Option (Option (GetTransactionResult V)) := do
  match ← chain.fetchBlockByNumber hint with
  | none => pure none
  | some blk =>
    let found ← findReceipt chain wanted blk.transactions
    pure (found.map fun p =>
      { id := p.1, trx := some p.2, blockTime := blk.timestamp, blockNum := hint,
        lastIrreversibleBlock := chain.lastIrreversibleBlockNum })

def getTransaction (index : ActionHistoryIndex) (p : GetTransactionParams) :
    Except QueryFailure (GetTransactionResult V) :=
  if 64 < p.id.length ∨ p.id.length < 8 then .error .transactionIdType
  else
    (chain.transactionId p.id).elim (.error .transactionIdType) fun inputId =>
    let matched := txnIdMatched inputId p.id.length
    let itr := PrefixSearch.lowerBound (fun row => idData row.trxId) (idData inputId) index.rows
    match itr.head?.filter fun row => matched row.trxId with
    | some row => (inHistory chain row itr).elim (.error .thrown) .ok
    | none =>
      match p.blockNumHint with
      | none => .error .txNotFound
      | some hint =>
        (inBlock chain matched hint).elim (.error .thrown) fun found =>
        found.elim (.error .txNotFound) .ok

end Query

/-! ### Bytes and digits -/

def high (b : UInt8) : Fin 16 := ⟨b.toNat / 16, by have := b.toNat_lt; omega⟩

def low (b : UInt8) : Fin 16 := ⟨b.toNat % 16, by omega⟩

/-- The hex digits of bytes. -/
def hexDigits (bytes : List UInt8) : List (Fin 16) := bytes.flatMap fun b => [high b, low b]

theorem digits_strictMono : StrictMono fun b : UInt8 => [high b, low b] := by
  intro a b h
  have hlt : a.toNat < b.toNat := UInt8.lt_iff_toNat_lt.mp h
  simp only [List.cons_lt_cons_iff, high, low, Fin.mk_lt_mk, Fin.mk.injEq]
  omega

/-- Bytes are in the order of their digits. -/
theorem hexDigits_strictMono : StrictMono hexDigits :=
  PrefixSearch.flatMap_strictMono (n := 1) digits_strictMono fun _ => rfl

theorem hexDigits_inj {l m : List UInt8} : hexDigits l = hexDigits m ↔ l = m :=
  hexDigits_strictMono.injective.eq_iff

theorem length_hexDigits (l : List UInt8) : (hexDigits l).length = 2 * l.length := by
  induction l with
  | nil => rfl
  | cons b l ih =>
      rw [hexDigits, List.flatMap_cons, List.length_append, ← hexDigits, ih, List.length_cons]
      simp
      omega

theorem take_hexDigits (l : List UInt8) (n : ℕ) :
    (hexDigits l).take (2 * n) = hexDigits (l.take n) := by
  induction l generalizing n with
  | nil => simp [hexDigits]
  | cons b l ih =>
      cases n with
      | zero => rfl
      | succ n => exact congrArg (fun t => high b :: low b :: t) (ih n)

/-- Half a byte is left of an odd number of digits. -/
theorem take_hexDigits_odd {l : List UInt8} {n : ℕ} (h : n < l.length) :
    (hexDigits l).take (2 * n + 1) = hexDigits (l.take n) ++ [high l[n]] := by
  induction l generalizing n with
  | nil => cases h
  | cons b l ih =>
      cases n with
      | zero => rfl
      | succ n =>
          have hlt : n < l.length := Nat.lt_of_succ_lt_succ h
          exact congrArg (fun t => high b :: low b :: t) (ih hlt)

theorem and_240 : ∀ n < 256, n &&& 240 = 16 * (n / 16) := by decide +kernel

theorem high_eq_iff (a b : UInt8) : high a = high b ↔ a &&& 0xF0 = b &&& 0xF0 := by
  have hmask : (0xF0 : UInt8).toNat = 240 := rfl
  rw [← UInt8.toNat_inj, UInt8.toNat_and, UInt8.toNat_and, hmask, and_240 _ a.toNat_lt,
    and_240 _ b.toNat_lt, high, high, Fin.mk.injEq]
  omega

theorem length_idData (id : TransactionId) : (idData id).length = 32 := by simp [idData]

theorem idData_inj {a b : TransactionId} : idData a = idData b ↔ a = b := by
  refine ⟨fun h => ?_, congrArg idData⟩
  have ha : a.toNat < 256 ^ 32 := a.isLt
  have hb : b.toNat < 256 ^ 32 := b.isLt
  apply BitVec.eq_of_toNat_eq
  rw [← ByteCode.ofLittleEndian_littleEndian ha, ← ByteCode.ofLittleEndian_littleEndian hb,
    List.reverse_injective h]

theorem length_hexDigits_idData (id : TransactionId) : (hexDigits (idData id)).length = 64 := by
  rw [length_hexDigits, length_idData]

/-- What `txn_id_matched` compares are the digits. -/
theorem txnIdMatched_iff {inputId id : TransactionId} {n : ℕ} (hn : n ≤ 64) :
    txnIdMatched inputId n id = true ↔
      (hexDigits (idData inputId)).take n = (hexDigits (idData id)).take n := by
  rw [txnIdMatched]
  obtain ⟨m, rfl | rfl⟩ := Nat.even_or_odd' n
  · have hhalf : 2 * m / 2 = m := by omega
    have heven : 2 * m % 2 = 0 := by omega
    rw [take_hexDigits, take_hexDigits, hexDigits_inj, hhalf, if_pos (.inr heven),
      decide_eq_true_eq]
  · have hhalf : (2 * m + 1) / 2 = m := by omega
    have hodd : ¬ (2 * m + 1) % 2 = 0 := by omega
    have hlt : ∀ i : TransactionId, m < (idData i).length := fun i => by
      rw [length_idData]
      omega
    rw [hhalf, take_hexDigits_odd (hlt inputId), take_hexDigits_odd (hlt id),
      List.append_singleton_inj, hexDigits_inj, high_eq_iff, List.getElem?_eq_getElem (hlt inputId),
      List.getElem?_eq_getElem (hlt id), Option.getD_some, Option.getD_some]
    by_cases hwhole : (idData inputId).take m = (idData id).take m
    · rw [if_neg (not_or.mpr ⟨not_not.mpr hwhole, hodd⟩), decide_eq_true_eq]
      exact (and_iff_right hwhole).symm
    · rw [if_pos (.inl hwhole), decide_eq_true_eq]
      exact iff_of_false hwhole fun h => hwhole h.1

/-! ### Finding by a prefix -/

/-- The value of a hex digit, in either case. -/
def hexValue (c : Char) : Option (Fin 16) :=
  if '0' ≤ c ∧ c ≤ '9' then some (Fin.ofNat 16 (c.toNat - '0'.toNat))
  else if 'a' ≤ c ∧ c ≤ 'f' then some (Fin.ofNat 16 (c.toNat - 'a'.toNat + 10))
  else if 'A' ≤ c ∧ c ≤ 'F' then some (Fin.ofNat 16 (c.toNat - 'A'.toNat + 10))
  else none

section Prefix

variable {V : Type} {chain : ChainView V} {index : ActionHistoryIndex}

/-- The id begins with the digits. -/
def Begins (digits : List (Fin 16)) (id : TransactionId) : Prop :=
  digits <+: hexDigits (idData id)

/-- The digits are read from the left and the rest of the id is zero. -/
def ReadsDigits (chain : ChainView V) (s : List Char) (digits : List (Fin 16)) : Prop :=
  ∃ inputId, chain.transactionId s = some inputId ∧
    hexDigits (idData inputId) = digits ++ List.replicate (64 - digits.length) 0

/-- Nothing is thrown when the rows and the receipts of their blocks are shown. -/
structure Shows (chain : ChainView V) (rows : List ActionHistoryObject) : Prop where
  traces : ∀ row ∈ rows, ∃ v, chain.showTrace row.packedActionTrace = some v
  blocks : ∀ row ∈ rows, ∃ fetched, chain.fetchBlockByNumber row.blockNum = some fetched ∧
    ∀ blk ∈ fetched.or chain.pendingBlock, ∀ receipt ∈ blk.transactions, ∀ pt,
      receipt.trx = .packed pt →
        (∃ id, chain.metadataId pt = some id) ∧ ∃ v, chain.showTransaction pt = some v

theorem findReceipt_some {wanted : TransactionId → Bool} {receipts : List TransactionReceipt}
    (h : ∀ receipt ∈ receipts, ∀ pt, receipt.trx = .packed pt →
      (∃ id, chain.metadataId pt = some id) ∧ ∃ v, chain.showTransaction pt = some v) :
    ∃ found, findReceipt chain wanted receipts = some found := by
  induction receipts with
  | nil => exact ⟨none, rfl⟩
  | cons receipt receipts ih =>
      obtain ⟨found, hfound⟩ := ih fun r hr => h r (List.mem_cons_of_mem receipt hr)
      rw [findReceipt]
      cases htrx : receipt.trx with
      | packed pt =>
          obtain ⟨⟨id, hid⟩, v, hv⟩ := h receipt List.mem_cons_self pt htrx
          simp only [hid, hv, hfound, Option.bind_eq_bind, Option.bind_some, Option.pure_def]
          split <;> exact ⟨_, rfl⟩
      | id id =>
          simp only [hfound]
          split <;> exact ⟨_, rfl⟩

theorem mapM_some {α β : Type} {f : α → Option β} {l : List α} (h : ∀ a ∈ l, ∃ b, f a = some b) :
    ∃ bs, l.mapM f = some bs := by
  induction l with
  | nil => exact ⟨[], rfl⟩
  | cons a l ih =>
      obtain ⟨b, hb⟩ := h a List.mem_cons_self
      obtain ⟨bs, hbs⟩ := ih fun a' ha' => h a' (List.mem_cons_of_mem a ha')
      exact ⟨b :: bs, by rw [List.mapM_cons, hb, hbs]; rfl⟩

theorem receiptOf_some (hshows : Shows chain index.rows) {row : ActionHistoryObject}
    (hrow : row ∈ index.rows) : ∃ trx, receiptOf chain row.trxId row.blockNum = some trx := by
  obtain ⟨fetched, hfetched, hreceipts⟩ := hshows.blocks row hrow
  rw [receiptOf, hfetched, Option.bind_eq_bind, Option.bind_some]
  cases hblk : fetched.or chain.pendingBlock with
  | none => exact ⟨none, rfl⟩
  | some blk =>
      obtain ⟨found, hfound⟩ := @findReceipt_some V chain (fun i => i = row.trxId)
        blk.transactions (hreceipts blk (Option.mem_def.mpr hblk))
      exact ⟨found.map Prod.snd, by simp [hfound]⟩

theorem inHistory_eq {row : ActionHistoryObject} {itr : List ActionHistoryObject} {traces : List V}
    {trx : Option (TransactionReceipt × Option V)}
    (htraces : ((itr.takeWhile fun r => r.trxId = row.trxId).mapM fun r =>
      chain.showTrace r.packedActionTrace) = some traces)
    (htrx : receiptOf chain row.trxId row.blockNum = some trx) :
    inHistory chain row itr =
      some { id := row.trxId, trx := trx, blockTime := row.blockTime, blockNum := row.blockNum,
             lastIrreversibleBlock := chain.lastIrreversibleBlockNum, traces := traces } := by
  rw [inHistory, htraces, htrx]
  rfl

theorem inHistory_spec {row : ActionHistoryObject} {itr : List ActionHistoryObject}
    {result : GetTransactionResult V} (h : inHistory chain row itr = some result) :
    result.id = row.trxId ∧ ((itr.takeWhile fun r => r.trxId = row.trxId).mapM fun r =>
      chain.showTrace r.packedActionTrace) = some result.traces := by
  obtain ⟨traces, htraces, h⟩ := Option.bind_eq_some_iff.mp h
  obtain ⟨trx, -, h⟩ := Option.bind_eq_some_iff.mp h
  cases h
  exact ⟨rfl, htraces⟩

/-- The rows are in the order of the bytes of their ids. -/
theorem rows_sorted (index : ActionHistoryIndex) :
    index.rows.Pairwise fun a b => idData a.trxId ≤ idData b.trxId :=
  index.sorted.imp fun h =>
    (Prod.Lex.toLex_lt_toLex.mp h).elim le_of_lt fun h => h.1.le

/-- The lower bound of the padded id is that of the padded digits. -/
theorem lowerBound_digits {inputId : TransactionId} {digits : List (Fin 16)}
    (hread : hexDigits (idData inputId) = PrefixSearch.pad 0 64 digits)
    (rows : List ActionHistoryObject) :
    PrefixSearch.lowerBound (fun row => idData row.trxId) (idData inputId) rows =
      PrefixSearch.lowerBound (fun row => hexDigits (idData row.trxId))
        (PrefixSearch.pad 0 64 digits) rows := by
  rw [PrefixSearch.lowerBound, PrefixSearch.lowerBound, ← hread]
  exact congrArg (fun below => rows.drop (IndexRead.lowerBound below rows))
    (funext fun row => decide_eq_decide.mpr hexDigits_strictMono.lt_iff_lt.symm)

theorem matched_iff {inputId : TransactionId} {digits : List (Fin 16)}
    (hread : hexDigits (idData inputId) = PrefixSearch.pad 0 64 digits) (hle : digits.length ≤ 64)
    (id : TransactionId) : txnIdMatched inputId digits.length id = true ↔ Begins digits id := by
  rw [txnIdMatched_iff hle, hread, PrefixSearch.pad, List.take_left, Begins,
    List.prefix_iff_eq_take]

/-- The row where the query finds its transaction. -/
theorem found_iff {inputId : TransactionId} {digits : List (Fin 16)}
    (hread : hexDigits (idData inputId) = PrefixSearch.pad 0 64 digits) (hle : digits.length ≤ 64) :
    (∃ row ∈ index.rows, Begins digits row.trxId) ↔
      ∃ row rest,
        PrefixSearch.lowerBound (fun row => idData row.trxId) (idData inputId) index.rows =
          row :: rest ∧ txnIdMatched inputId digits.length row.trxId = true := by
  have hsorted : index.rows.Pairwise fun a b =>
      hexDigits (idData a.trxId) ≤ hexDigits (idData b.trxId) :=
    (rows_sorted index).imp fun {a b} h => hexDigits_strictMono.monotone h
  rw [lowerBound_digits hread]
  refine (PrefixSearch.exists_prefix_iff (n := 64) Fin.zero_le hsorted
    (fun row _ => length_hexDigits_idData row.trxId) digits).trans ?_
  refine exists_congr fun row => exists_congr fun rest => and_congr_right fun _ => ?_
  exact (matched_iff hread hle row.trxId).symm

/-- The walk shows all rows of the transaction. -/
theorem takeWhile_rows {inputId : TransactionId} {row : ActionHistoryObject}
    {rest : List ActionHistoryObject}
    (h : PrefixSearch.lowerBound (fun row => idData row.trxId) (idData inputId) index.rows =
      row :: rest) :
    (row :: rest).takeWhile (fun r => r.trxId = row.trxId) =
      index.rows.filter fun r => r.trxId = row.trxId := by
  have hwalk := PrefixSearch.takeWhile_lowerBound (rows_sorted index) h
  rw [h] at hwalk
  simpa only [idData_inj] using hwalk

/-- The search stands at a row with the digits. -/
theorem getTransaction_of_found {p : GetTransactionParams} (hmin : 8 ≤ p.id.length)
    (hmax : p.id.length ≤ 64) {inputId : TransactionId}
    (hparse : chain.transactionId p.id = some inputId)
    {row : ActionHistoryObject} {rest : List ActionHistoryObject}
    (hitr : PrefixSearch.lowerBound (fun row => idData row.trxId) (idData inputId) index.rows =
      row :: rest) (hmatched : txnIdMatched inputId p.id.length row.trxId = true) :
    getTransaction chain index p =
      (inHistory chain row (row :: rest)).elim (.error .thrown) .ok := by
  rw [getTransaction, if_neg (by omega), hparse, Option.elim_some]
  dsimp only
  rw [hitr, List.head?_cons, Option.filter_some, if_pos hmatched]

/-- The search does not stand at such a row, and there is no hint. -/
theorem getTransaction_of_not {p : GetTransactionParams} (hhint : p.blockNumHint = none)
    (hmin : 8 ≤ p.id.length) (hmax : p.id.length ≤ 64) {inputId : TransactionId}
    (hparse : chain.transactionId p.id = some inputId)
    (hnone : ¬ ∃ row rest,
      PrefixSearch.lowerBound (fun row => idData row.trxId) (idData inputId) index.rows =
        row :: rest ∧ txnIdMatched inputId p.id.length row.trxId = true) :
    getTransaction chain index p = .error .txNotFound := by
  have hfilter : ((PrefixSearch.lowerBound (fun row => idData row.trxId) (idData inputId)
      index.rows).head?.filter fun row =>
        txnIdMatched inputId p.id.length row.trxId) = none := by
    rw [Option.filter_eq_none_iff]
    intro row hrow hmatched
    obtain ⟨rest, hitr⟩ := List.head?_eq_some_iff.mp hrow
    exact hnone ⟨row, rest, hitr, hmatched⟩
  rw [getTransaction, if_neg (by omega), hparse, Option.elim_some]
  dsimp only
  rw [hfilter, hhint]

/-- The query finds a transaction by the digits that its id is to begin with exactly if a
recorded id begins with them, and then it returns one unless showing it throws.  The id that
is found begins with the digits, and its traces are all that are recorded of it. -/
theorem getTransaction_prefix (chain : ChainView V) (index : ActionHistoryIndex)
    (p : GetTransactionParams) {digits : List (Fin 16)} (hhint : p.blockNumHint = none)
    (hhex : p.id.map hexValue = digits.map some) (hmin : 8 ≤ p.id.length)
    (hmax : p.id.length ≤ 64) (hread : ReadsDigits chain p.id digits) :
    (getTransaction chain index p = .error .txNotFound ↔
        ¬ ∃ row ∈ index.rows, Begins digits row.trxId) ∧
      (Shows chain index.rows → ((∃ result, getTransaction chain index p = .ok result) ↔
        ∃ row ∈ index.rows, Begins digits row.trxId)) ∧
      ∀ result, getTransaction chain index p = .ok result →
        Begins digits result.id ∧ (∃ row ∈ index.rows, row.trxId = result.id) ∧
          ((index.rows.filter fun row => row.trxId = result.id).mapM fun row =>
            chain.showTrace row.packedActionTrace) = some result.traces := by
  obtain ⟨inputId, hparse, hread⟩ := hread
  have hlength : digits.length = p.id.length := by
    rw [← List.length_map (f := some), ← hhex, List.length_map]
  have hle : digits.length ≤ 64 := hlength.le.trans hmax
  have hfound := @found_iff index inputId digits hread hle
  rw [hlength] at hfound
  by_cases hexists : ∃ row ∈ index.rows, Begins digits row.trxId
  · obtain ⟨row, rest, hitr, hmatched⟩ := hfound.mp hexists
    have hmem : row ∈ index.rows := (PrefixSearch.head_lowerBound (rows_sorted index) hitr).1
    have hbegins : Begins digits row.trxId :=
      (matched_iff hread hle row.trxId).mp (by rw [hlength]; exact hmatched)
    rw [getTransaction_of_found hmin hmax hparse hitr hmatched]
    refine ⟨iff_of_false ?_ (not_not.mpr hexists), fun hshows => iff_of_true ?_ hexists, ?_⟩
    · cases inHistory chain row (row :: rest) <;> exact fun h => (by cases h)
    · obtain ⟨traces, htraces⟩ := @mapM_some _ _ (fun r => chain.showTrace r.packedActionTrace)
        ((row :: rest).takeWhile fun r => r.trxId = row.trxId) fun r hr => by
          rw [takeWhile_rows hitr] at hr
          exact hshows.traces r (List.mem_filter.mp hr).1
      obtain ⟨trx, htrx⟩ := receiptOf_some hshows hmem
      rw [inHistory_eq htraces htrx]
      exact ⟨_, rfl⟩
    · intro result hok
      cases hresult : inHistory chain row (row :: rest) with
      | none =>
          rw [hresult] at hok
          cases hok
      | some found =>
          rw [hresult] at hok
          cases hok
          obtain ⟨hid, htraces⟩ := inHistory_spec hresult
          rw [hid, ← takeWhile_rows hitr]
          exact ⟨hbegins, ⟨row, hmem, rfl⟩, htraces⟩
  · rw [getTransaction_of_not hhint hmin hmax hparse fun h => hexists (hfound.mpr h)]
    refine ⟨iff_of_true rfl hexists, fun _ => iff_of_false ?_ hexists, ?_⟩
    · rintro ⟨result, hok⟩
      cases hok
    · rintro result hok
      cases hok

end Prefix

/-! ### Some rows -/

def idOfDigits (digits : List (Fin 16)) : TransactionId :=
  BitVec.ofNat 256 (digits.foldl (fun n d => 16 * n + d.val) 0 * 16 ^ (64 - digits.length))

/-- A chain that shows what is packed as it is. -/
def plainChain : ChainView (List UInt8) where
  transactionId s := (s.mapM hexValue).map idOfDigits
  lastIrreversibleBlockNum := 7
  fetchBlockByNumber _ := some none
  pendingBlock := none
  metadataId _ := some 0
  showTransaction := some
  showTrace := some

/-- Two transactions with the same first nine digits, the second one with two actions. -/
def fewRows : ActionHistoryIndex where
  rows := [⟨3, [1], 5, 10, 0x0123456781 <<< 216⟩, ⟨4, [2], 5, 10, 0x0123456782 <<< 216⟩,
    ⟨6, [3], 5, 10, 0x0123456782 <<< 216⟩]
  sorted := by decide +kernel

theorem getTransaction_nine :
    (getTransaction plainChain fewRows { id := "012345678".toList } = .error .txNotFound ↔
        ¬ ∃ row ∈ fewRows.rows, Begins [0, 1, 2, 3, 4, 5, 6, 7, 8] row.trxId) ∧
      (Shows plainChain fewRows.rows →
        ((∃ result, getTransaction plainChain fewRows { id := "012345678".toList } = .ok result) ↔
          ∃ row ∈ fewRows.rows, Begins [0, 1, 2, 3, 4, 5, 6, 7, 8] row.trxId)) ∧
      ∀ result, getTransaction plainChain fewRows { id := "012345678".toList } = .ok result →
        Begins [0, 1, 2, 3, 4, 5, 6, 7, 8] result.id ∧
          (∃ row ∈ fewRows.rows, row.trxId = result.id) ∧
          ((fewRows.rows.filter fun row => row.trxId = result.id).mapM fun row =>
            plainChain.showTrace row.packedActionTrace) = some result.traces :=
  getTransaction_prefix plainChain fewRows { id := "012345678".toList } rfl (by decide +kernel)
    (by decide) (by decide)
    ⟨idOfDigits [0, 1, 2, 3, 4, 5, 6, 7, 8], by decide +kernel, by decide +kernel⟩

end Xidata.History
