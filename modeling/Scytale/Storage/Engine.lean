/-
  Scytale.Storage.Engine — the storage engine
  (crates/scytale-storage/src/engine.rs, tables.rs).

  Each redb table is a finite map from the values its keys encode to the values its bytes
  encode; where encoding or decoding can fail, the failure is there. A write transaction is
  all or nothing, so an operation gives the tables it leaves or an error, and no half-done
  tables. `commit_block` and the connecting half of `apply_reorganization` do the same to
  the tables (`connectBlock`).
-/
import Scytale.Lib.Undo
import Scytale.Core.Utxo
import Scytale.Consensus.Work

namespace Scytale

open Lib

inductive StorageError where
  /-- An error redb reports. -/
  | redb (text : String)
  | serialization
  | missingUndo (block : Hash256)
  /-- A snapshot whose entries do not have the root it names. -/
  | snapshotRootMismatch (expected calculated : Hash256)
  /-- A row the set in memory does not take. -/
  | inconsistentRow (e : UtxoError)
  deriving DecidableEq

structure BlockMeta where
  height : UInt64
  cumulativeWork : CumulativeWork
  timestamp : UInt64
  deriving DecidableEq

structure AddressTxRecord where
  txid : Hash256
  isInput : Bool
  isOutput : Bool
  valueQuanta : UInt64
  /-- `[u8; 32]`. -/
  tokenId : Option Hash256
  deriving DecidableEq

/-- `BlockUndo`: the entries a block spent and the outpoints it created. -/
abbrev BlockUndo := Undo OutPoint UtxoEntry

/-- The tables. -/
structure StorageEngine where
  blocks : Table Hash256 Block
  transactions : Table Hash256 Transaction
  utxos : Table OutPoint UtxoEntry
  blockIndex : Table Hash256 BlockMeta
  tipHash : Option Hash256
  tipHeight : Option UInt64
  addressTxIndex : Table Bytes (List AddressTxRecord)
  blockUndo : Table Hash256 BlockUndo
  blockHeightIndex : Table UInt64 Hash256
  txConfirmIndex : Table Hash256 (Hash256 × UInt64)
  deriving DecidableEq

namespace StorageEngine

/-- A fresh database. -/
def empty : StorageEngine := ⟨∅, ∅, ∅, ∅, none, none, ∅, ∅, ∅, ∅⟩

def getCanonicalTip (db : StorageEngine) : Option (Hash256 × UInt64) :=
  match db.tipHash, db.tipHeight with
  | some hash, some height => some (hash, height)
  | _, _ => none

/-- The address, then the height, big-endian. -/
def makeAddressTxKey (address : Bytes) (height : UInt64) : Bytes := address ++ beBytes 8 height.toNat

section
variable (H : Hasher)

/-- A pay-to-public-key-hash script, a lock, 32 bytes as they are, or any other script's
    digest. -/
def extractAddressFromLockingCondition (script : Bytes) : Option Bytes :=
  if script.length = 37 ∧ script.take 3 = [0x73, 0xa0, 0x20] ∧ script.drop 35 = [0x88, 0xac] then
    some ((script.drop 3).take 32)
  else match OutputLock.fromLockingCondition script with
    | some (.publicKey pk) => some (H pk).bytes
    | some (.script scriptHash _) => some scriptHash
    | none =>
      if script.length = 32 then some script
      else if script.isEmpty then none
      else some (H script).bytes

/-! ## Connecting a block -/

/-- The tables while a block is written, with its undo record and address records so far. -/
structure Draft where
  db : StorageEngine
  undo : BlockUndo
  records : List (Bytes × AddressTxRecord)

/-- The output an input spends, for the address index: from the unspent outputs, else from
    the stored transactions. -/
def spentOutput (db : StorageEngine) (o : OutPoint) : Except StorageError (Option TxOut) :=
  match db.utxos[o]? with
  | some entry => .ok (some entry.output)
  | none =>
    match db.transactions[o.txid]? with
    | none => .ok none
    | some prev => if prev.decodable then .ok prev.outputs[o.index.toNat]? else .error .serialization

def inputRecords (txid : Hash256) (output : Option TxOut) : List (Bytes × AddressTxRecord) :=
  match output with
  | none => []
  | some out =>
    match extractAddressFromLockingCondition H out.lockingCondition with
    | none => []
    | some address => [(address, ⟨txid, true, false, out.value, none⟩)]

def outputRecords (txid : Hash256) (outputs : List TxOut) : List (Bytes × AddressTxRecord) :=
  outputs.filterMap fun out => (extractAddressFromLockingCondition H out.lockingCondition).map
    fun address => (address, ⟨txid, false, true, out.value, none⟩)

/-- The loop over the inputs. -/
def spendInputs (txid : Hash256) : Draft → List OutPoint → Except StorageError Draft
  | d, [] => .ok d
  | d, o :: os =>
    match spentOutput d.db o with
    | .error e => .error e
    | .ok output =>
      let s := Undo.take (d.db.utxos, d.undo) o
      spendInputs txid ⟨{ d.db with utxos := s.1 }, s.2, d.records ++ inputRecords H txid output⟩ os

/-- The loop over the outputs: each has its address recorded, and each that is no data
    carrier is written. -/
def createOutputs (height : UInt64) (tx : Transaction) (d : Draft) : Draft :=
  let s := Undo.putAll (d.db.utxos, d.undo) (UtxoSet.created H height tx.isCoinbase tx)
  ⟨{ d.db with utxos := s.1 }, s.2, d.records ++ outputRecords H (tx.txid H) tx.outputs⟩

/-- One transaction of a block. -/
def storeTransaction (blockHash : Hash256) (height : UInt64) (d : Draft) (tx : Transaction) : Except StorageError Draft :=
  let txid := tx.txid H
  let db := { d.db with
    transactions := d.db.transactions.insert txid tx
    txConfirmIndex := d.db.txConfirmIndex.insert txid (blockHash, height) }
  let inputs := if tx.isCoinbase then [] else tx.inputs.map TxIn.previousOutput
  match spendInputs H txid { d with db := db } inputs with
  | .error e => .error e
  | .ok d => .ok (createOutputs H height tx d)

def storeTransactions (blockHash : Hash256) (height : UInt64) : Draft → List Transaction → Except StorageError Draft
  | d, [] => .ok d
  | d, tx :: txs =>
    match storeTransaction H blockHash height d tx with
    | .error e => .error e
    | .ok d => storeTransactions blockHash height d txs

/-- `block_addr_records`: the records of a block by address. -/
def groupRecords (records : List (Bytes × AddressTxRecord)) : Table Bytes (List AddressTxRecord) :=
  records.foldl (fun m r => m.insert r.1 (m[r.1]?.getD [] ++ [r.2])) ∅

/-- The records of a block behind those already there under its height. -/
def writeRecords (height : UInt64) : Table Bytes (List AddressTxRecord) → List (Bytes × List AddressTxRecord) →
    Except StorageError (Table Bytes (List AddressTxRecord))
  | index, [] => .ok index
  | index, (address, new) :: rest =>
    let key := makeAddressTxKey address height
    match index[key]? with
    | none => writeRecords height (index.insert key new) rest
    | some old =>
      if old.length > maxVectorLength then .error .serialization
      else writeRecords height (index.insert key (old ++ new)) rest

/-- Everything but the tip. -/
def connectBlock (db : StorageEngine) (block : Block) (height : UInt64) (cumulativeWork : CumulativeWork) :
    Except StorageError StorageEngine :=
  let blockHash := block.header.hash H
  if !block.encodable then .error .serialization
  else
    let db := { db with
      blocks := db.blocks.insert blockHash block
      blockHeightIndex := db.blockHeightIndex.insert height blockHash }
    match storeTransactions H blockHash height ⟨db, Undo.empty, []⟩ block.transactions with
    | .error e => .error e
    | .ok d =>
      match writeRecords height d.db.addressTxIndex (groupRecords d.records).toList with
      | .error e => .error e
      | .ok index =>
        .ok { d.db with
          addressTxIndex := index
          blockUndo := d.db.blockUndo.insert blockHash d.undo
          blockIndex := d.db.blockIndex.insert blockHash ⟨height, cumulativeWork, block.header.timestamp⟩ }

def setTip (db : StorageEngine) (hash : Hash256) (height : UInt64) : StorageEngine :=
  { db with tipHash := some hash, tipHeight := some height }

def commitBlock (db : StorageEngine) (block : Block) (height : UInt64) (cumulativeWork : CumulativeWork) :
    Except StorageError StorageEngine :=
  match connectBlock H db block height cumulativeWork with
  | .error e => .error e
  | .ok db => .ok (db.setTip (block.header.hash H) height)

/-! ## Disconnecting blocks -/

/-- The output an input of the block spends: of the block's own transactions the last with
    the identifier, else of the stored ones. -/
def previousOutput (db : StorageEngine) (block : Block) (o : OutPoint) : Option TxOut :=
  match block.transactions.reverse.find? fun t => t.txid H = o.txid with
  | some tx => tx.outputs[o.index.toNat]?
  | none =>
    match db.transactions[o.txid]? with
    | none => none
    | some prev => if prev.decodable then prev.outputs[o.index.toNat]? else none

/-- The addresses a block's transactions pay to or spend from. -/
def touchedAddresses (db : StorageEngine) (block : Block) : List Bytes :=
  block.transactions.flatMap fun tx =>
    let outs := tx.outputs.map fun out => out.lockingCondition
    let ins := if tx.isCoinbase then []
      else tx.inputs.filterMap fun i => (previousOutput H db block i.previousOutput).map (·.lockingCondition)
    (outs ++ ins).filterMap (extractAddressFromLockingCondition H)

def removeBlockAddressRecords (db : StorageEngine) (block : Block) (height : UInt64) : Table Bytes (List AddressTxRecord) :=
  Table.eraseAll db.addressTxIndex ((touchedAddresses H db block).map fun address => makeAddressTxKey address height)

/-- One round of the rollback loop. -/
def disconnectBlock (db : StorageEngine) (block : Block) : Except StorageError StorageEngine :=
  let hash := block.header.hash H
  let db := match db.blockIndex[hash]? with
    | none => db
    | some info => { db with
        addressTxIndex := removeBlockAddressRecords H db block info.height
        blockHeightIndex := db.blockHeightIndex.erase info.height }
  match db.blockUndo[hash]? with
  | none => .error (.missingUndo hash)
  | some undo =>
    let txids := block.transactions.map fun t => t.txid H
    .ok { db with
      utxos := undo.revert db.utxos
      transactions := Table.eraseAll db.transactions txids
      txConfirmIndex := Table.eraseAll db.txConfirmIndex txids
      blocks := db.blocks.erase hash
      blockIndex := db.blockIndex.erase hash
      blockUndo := db.blockUndo.erase hash }

def disconnectBlocks : StorageEngine → List Block → Except StorageError StorageEngine
  | db, [] => .ok db
  | db, block :: blocks =>
    match disconnectBlock H db block with
    | .error e => .error e
    | .ok db => disconnectBlocks db blocks

def connectBlocks : StorageEngine → List (Block × UInt64 × CumulativeWork) → Except StorageError StorageEngine
  | db, [] => .ok db
  | db, (block, height, work) :: rest =>
    match connectBlock H db block height work with
    | .error e => .error e
    | .ok db => connectBlocks db rest

def applyReorganization (db : StorageEngine) (disconnected : List Block)
    (connected : List (Block × UInt64 × CumulativeWork)) : Except StorageError StorageEngine :=
  match disconnectBlocks H db disconnected with
  | .error e => .error e
  | .ok db =>
    match connectBlocks H db connected with
    | .error e => .error e
    | .ok db =>
      match connected.getLast? with
      | none => .ok db
      | some (block, height, _) => .ok (db.setTip (block.header.hash H) height)

end

end StorageEngine

end Scytale
