/-
  Scytale.Indexer.Store — the relational index (crates/scytale-indexer/src/lib.rs, store.rs,
  schema.rs).

  The tables are maps under their primary keys; a column of hexadecimal text holds the bytes
  it shows. `INSERT OR REPLACE` takes out the rows it is in conflict with, and a statement
  fails that leaves a foreign key without its row. SQLite's integers are signed: a `u64` past
  them is not bound, and a sum past them is an error. A failed statement takes the whole
  block back.
  - `indexBlock_ok`: a block whose numbers are integers is indexed, unless its hash stands
    at another height, and what its transactions leave in the outputs table.
-/
import Scytale.Lib.Contents
import Scytale.Storage.Engine

namespace Scytale

open Lib

/-! ## Payloads -/

structure IndexerOutput where
  address : Bytes
  vout : UInt32
  value : UInt64
  tokenId : Option String
  deriving DecidableEq

structure IndexerTxPayload where
  txid : Hash256
  fee : UInt64
  inputs : List OutPoint
  outputs : List IndexerOutput
  deriving DecidableEq

section
variable (H : Hasher)

/-- The address of a locking condition, or the condition itself where it has none. -/
def indexerAddress (lockingCondition : Bytes) : Bytes :=
  (StorageEngine.extractAddressFromLockingCondition H lockingCondition).getD lockingCondition

def indexerOutput (vout : Nat) (out : TxOut) : IndexerOutput :=
  ⟨indexerAddress H out.lockingCondition, UInt32.ofNat vout, out.value, none⟩

def extractTxPayload (tx : Transaction) : IndexerTxPayload :=
  ⟨tx.txid H, 0, if tx.isCoinbase then [] else tx.inputs.map TxIn.previousOutput, tx.outputs.mapIdx (indexerOutput H)⟩

def extractBlockIndexerPayload (block : Block) : List IndexerTxPayload := block.transactions.map (extractTxPayload H)

end

/-! ## Tables -/

structure BlockRow where
  hash : Hash256
  parentHash : Hash256
  timestamp : UInt64
  txCount : Nat
  merkleRoot : Hash256
  utxoRoot : Hash256
  deriving DecidableEq

structure TransactionRow where
  blockHeight : UInt64
  blockHash : Hash256
  fee : UInt64
  inputCount : Nat
  outputCount : Nat
  deriving DecidableEq

structure AddressUtxoRow where
  address : Bytes
  valueQuanta : UInt64
  tokenId : Option String
  isSpent : Bool
  deriving DecidableEq

structure IndexerStore where
  indexBlocks : Table UInt64 BlockRow
  indexTransactions : Table Hash256 TransactionRow
  indexAddressUtxos : Table OutPoint AddressUtxoRow
  deriving DecidableEq

inductive SqlError where
  | toSqlConversionFailure
  | foreignKey
  | integerOverflow
  deriving DecidableEq

namespace IndexerStore

def openInMemory : IndexerStore := ⟨∅, ∅, ∅⟩

/-- A `u64` as a statement's parameter. -/
def isInteger (n : UInt64) : Bool := n.toNat < 2 ^ 63

/-- Rows at the height and rows with the hash are replaced. The transactions of a row that is
    gone for its hash would be without their block. -/
def insertBlock (s : IndexerStore) (height : UInt64) (row : BlockRow) : Except SqlError IndexerStore :=
  if !(isInteger height && isInteger row.timestamp) then .error .toSqlConversionFailure
  else if s.indexTransactions.toList.any fun t =>
      t.2.blockHeight ≠ height && (s.indexBlocks[t.2.blockHeight]?.any fun old => old.hash = row.hash) then
    .error .foreignKey
  else .ok { s with indexBlocks := (s.indexBlocks.filter fun _ old => old.hash ≠ row.hash).insert height row }

/-- `UPDATE index_address_utxos SET is_spent = 1`, which no row need match. -/
def markSpent (rows : Table OutPoint AddressUtxoRow) (o : OutPoint) : Table OutPoint AddressUtxoRow :=
  match rows[o]? with
  | none => rows
  | some row => rows.insert o { row with isSpent := true }

def insertOutputs (txid : Hash256) : Table OutPoint AddressUtxoRow → List IndexerOutput →
    Except SqlError (Table OutPoint AddressUtxoRow)
  | rows, [] => .ok rows
  | rows, out :: outs =>
    if !isInteger out.value then .error .toSqlConversionFailure
    else insertOutputs txid (rows.insert ⟨txid, out.vout⟩ ⟨out.address, out.value, out.tokenId, false⟩) outs

def insertTransaction (height : UInt64) (hash : Hash256) (s : IndexerStore) (t : IndexerTxPayload) :
    Except SqlError IndexerStore :=
  if !isInteger t.fee then .error .toSqlConversionFailure
  else match insertOutputs t.txid (t.inputs.foldl markSpent s.indexAddressUtxos) t.outputs with
    | .error e => .error e
    | .ok rows =>
      .ok { s with
        indexTransactions := s.indexTransactions.insert t.txid ⟨height, hash, t.fee, t.inputs.length, t.outputs.length⟩
        indexAddressUtxos := rows }

def insertTransactions (height : UInt64) (hash : Hash256) : IndexerStore → List IndexerTxPayload →
    Except SqlError IndexerStore
  | s, [] => .ok s
  | s, t :: txs =>
    match insertTransaction height hash s t with
    | .error e => .error e
    | .ok s => insertTransactions height hash s txs

def indexBlock (s : IndexerStore) (height : UInt64) (hash parentHash : Hash256) (timestamp : UInt64)
    (merkleRoot utxoRoot : Hash256) (txs : List IndexerTxPayload) : Except SqlError IndexerStore :=
  match insertBlock s height ⟨hash, parentHash, timestamp, txs.length, merkleRoot, utxoRoot⟩ with
  | .error e => .error e
  | .ok s => insertTransactions height hash s txs

/-- What an unspent row of the address has. -/
def balanceOf (address : Bytes) (row : AddressUtxoRow) : Nat :=
  if row.address = address ∧ row.isSpent = false then row.valueQuanta.toNat else 0

def getAddressBalance (s : IndexerStore) (address : Bytes) : Except SqlError UInt64 :=
  let sum := Table.sumBy (balanceOf address) s.indexAddressUtxos
  if sum < 2 ^ 63 then .ok (UInt64.ofNat sum) else .error .integerOverflow

/-! ## What indexing does -/

/-- The row of a new output. -/
def outputRow (txid : Hash256) (out : IndexerOutput) : OutPoint × AddressUtxoRow :=
  (⟨txid, out.vout⟩, ⟨out.address, out.value, out.tokenId, false⟩)

/-- The outputs table after a transaction all of whose numbers are integers. -/
def writtenRows (rows : Table OutPoint AddressUtxoRow) (t : IndexerTxPayload) : Table OutPoint AddressUtxoRow :=
  Table.insertAll (t.inputs.foldl markSpent rows) (t.outputs.map (outputRow t.txid))

theorem get_markSpent (rows : Table OutPoint AddressUtxoRow) (o a : OutPoint) :
    (markSpent rows o)[a]? = if a = o then rows[a]?.map ({ · with isSpent := true }) else rows[a]? := by
  unfold markSpent
  by_cases e : a = o
  · subst e
    cases h : rows[a]? with
    | none => simp [h]
    | some row => simp
  · cases h : rows[o]? with
    | none => simp [e]
    | some row => simp [e, Table.get_insert_ne _ _ (Ne.symm e)]

theorem get_markSpents (os : List OutPoint) : ∀ (rows : Table OutPoint AddressUtxoRow) (a : OutPoint),
    (os.foldl markSpent rows)[a]? = if a ∈ os then rows[a]?.map ({ · with isSpent := true }) else rows[a]? := by
  induction os with
  | nil => intro rows a; simp
  | cons o os ih =>
    intro rows a
    rw [List.foldl_cons, ih, get_markSpent]
    by_cases e : a = o
    · -- marked twice is marked once
      simp [e, Option.map_map, Function.comp_def]
    · simp [e]

theorem insertOutputs_ok (txid : Hash256) (outs : List IndexerOutput) : ∀ rows : Table OutPoint AddressUtxoRow,
    (∀ out ∈ outs, isInteger out.value = true) →
      insertOutputs txid rows outs = .ok (Table.insertAll rows (outs.map (outputRow txid))) := by
  induction outs with
  | nil => intro rows _; rfl
  | cons out outs ih =>
    intro rows h
    obtain ⟨hout, h⟩ := List.forall_mem_cons.mp h
    unfold insertOutputs
    rw [hout, Bool.not_true, if_neg (by simp), ih _ h]
    rfl

theorem insertTransactions_ok (height : UInt64) (hash : Hash256) (txs : List IndexerTxPayload) : ∀ s : IndexerStore,
    (∀ t ∈ txs, isInteger t.fee = true ∧ ∀ out ∈ t.outputs, isInteger out.value = true) →
      ∃ s', insertTransactions height hash s txs = .ok s' ∧ s'.indexBlocks = s.indexBlocks ∧
        s'.indexAddressUtxos = txs.foldl writtenRows s.indexAddressUtxos := by
  induction txs with
  | nil => intro s _; exact ⟨s, rfl, rfl, rfl⟩
  | cons t txs ih =>
    intro s h
    obtain ⟨⟨hfee, houts⟩, h⟩ := List.forall_mem_cons.mp h
    unfold insertTransactions insertTransaction
    rw [hfee, Bool.not_true, if_neg (by simp), insertOutputs_ok _ _ _ houts]
    exact ih _ h

/-- A block whose numbers are integers is indexed where its hash stands at no other height. -/
theorem indexBlock_ok (s : IndexerStore) {height timestamp : UInt64} (hash parentHash merkleRoot utxoRoot : Hash256)
    {txs : List IndexerTxPayload} (hheight : isInteger height = true) (htime : isInteger timestamp = true)
    (hints : ∀ t ∈ txs, isInteger t.fee = true ∧ ∀ out ∈ t.outputs, isInteger out.value = true)
    (hplace : ∀ (h : UInt64) (row : BlockRow), s.indexBlocks[h]? = some row → row.hash = hash → h = height) :
    ∃ s', s.indexBlock height hash parentHash timestamp merkleRoot utxoRoot txs = .ok s' ∧
      s'.indexAddressUtxos = txs.foldl writtenRows s.indexAddressUtxos ∧
      ∀ (h : UInt64) (row : BlockRow), s'.indexBlocks[h]? = some row →
        (h = height ∧ row.hash = hash) ∨ s.indexBlocks[h]? = some row := by
  unfold indexBlock insertBlock
  have hfk : (s.indexTransactions.toList.any fun t => t.2.blockHeight ≠ height &&
      (s.indexBlocks[t.2.blockHeight]?.any fun old => old.hash = hash)) = false := by
    rw [List.any_eq_false]
    intro t ht
    by_cases e : t.2.blockHeight = height
    · simp [e]
    · cases hb : s.indexBlocks[t.2.blockHeight]? with
      | none => simp
      | some row =>
        have : row.hash ≠ hash := fun h => e (hplace _ row hb h)
        simp [this]
  simp only [hheight, htime, Bool.and_self, Bool.not_true, Bool.false_eq_true, if_false, hfk]
  obtain ⟨s', hs', hblocks, hrows⟩ := insertTransactions_ok height hash txs
    ⟨(s.indexBlocks.filter fun _ old => old.hash ≠ hash).insert height
      ⟨hash, parentHash, timestamp, txs.length, merkleRoot, utxoRoot⟩, s.indexTransactions, s.indexAddressUtxos⟩ hints
  refine ⟨s', hs', hrows, fun h row hrow => ?_⟩
  rw [hblocks, Table.get_insert] at hrow
  by_cases e : height = h
  · rw [if_pos e] at hrow
    cases hrow
    exact .inl ⟨e.symm, rfl⟩
  · rw [if_neg e, Std.ExtTreeMap.getElem?_filter'] at hrow
    exact .inr (Option.eq_some_of_filter_eq_some hrow)

end IndexerStore

end Scytale
