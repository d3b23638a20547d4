/-
  Scytale.Node.Queries — what is read of a node (apps/scytale-node/src/node.rs and error.rs,
  crates/scytale-storage/src/engine.rs).

  Every query reads the tables; none changes them.
-/
import Scytale.Storage.Snapshot

namespace Scytale

open Lib

inductive NodeState where
  | starting
  | initializing
  | recovering
  | syncing
  | ready
  | running
  | stopping
  | stopped
  | failed (text : String)
  deriving DecidableEq

/-- The errors of `NodeError` that queries give. -/
inductive ChainQueryError where
  | storage (e : StorageError)
  | inconsistentState (text : String)
  deriving DecidableEq

namespace StorageEngine

variable (db : StorageEngine)

def getTransaction (txid : Hash256) : Except StorageError (Option Transaction) :=
  match db.transactions[txid]? with
  | none => .ok none
  | some tx => if tx.decodable then .ok (some tx) else .error .serialization

def getTransactionHeight (txid : Hash256) : Option UInt64 := (db.txConfirmIndex[txid]?).map (·.2)

def getBlockByHeight (height : UInt64) : Except StorageError (Option Block) :=
  match db.blockHeightIndex[height]? with
  | none => .ok none
  | some hash => db.getBlock hash

/-- The height in the last eight bytes of a key of the address index. -/
def keyHeight (key : Bytes) : UInt64 := UInt64.ofNat (byteVal ((key.drop 32).take 8))

/-- The records of rows in their order, `limit` of them at most. A row that is reached has to
    be readable. -/
def collectRecords : Nat → List (Bytes × List AddressTxRecord) → Except StorageError (List (UInt64 × AddressTxRecord))
  | 0, _ => .ok []
  | _, [] => .ok []
  | limit + 1, (key, records) :: rows =>
    if records.length > maxVectorLength then .error .serialization
    else
      let taken := (records.take (limit + 1)).map fun r => (keyHeight key, r)
      match collectRecords (limit + 1 - taken.length) rows with
      | .error e => .error e
      | .ok rest => .ok (taken ++ rest)

def getAddressTransactionsWithHeight (address : Bytes) (fromHeight toHeight : UInt64) (limit : Nat) :
    Except StorageError (List (UInt64 × AddressTxRecord)) :=
  if limit = 0 ∨ fromHeight > toHeight then .ok []
  else collectRecords limit (db.addressTxIndex.toList.filter fun row =>
    (compare (makeAddressTxKey address fromHeight) row.1).isLE && (compare row.1 (makeAddressTxKey address toHeight)).isLE)

end StorageEngine

section
variable (db : StorageEngine)

/-- `Node::lookup_transaction`. -/
def lookupTransaction (txid : Hash256) : Except ChainQueryError (Option Transaction) :=
  (db.getTransaction txid).mapError .storage

/-- `Node::canonical_transaction_height`. -/
def canonicalTransactionHeight (txid : Hash256) : Option UInt64 := db.getTransactionHeight txid

/-- The blocks at heights, in their order. -/
def blocksAt : List UInt64 → Except ChainQueryError (List (Block × UInt64))
  | [] => .ok []
  | h :: hs =>
    match db.getBlockByHeight h with
    | .error e => .error (.storage e)
    | .ok none => .error (.inconsistentState ("missing block at canonical height " ++ toString h.toNat))
    | .ok (some block) =>
      match blocksAt hs with
      | .error e => .error e
      | .ok rest => .ok ((block, h) :: rest)

def queryCanonicalRange (startHeight : UInt64) (limit : Nat) (ascending : Bool) :
    Except ChainQueryError (List (Block × UInt64)) :=
  if limit = 0 then .ok []
  else if limit > 100 then .error (.inconsistentState "range limit exceeds 100")
  else match db.getCanonicalTip with
    | none => .error (.inconsistentState "no canonical tip")
    | some (_, tipHeight) =>
      if startHeight > tipHeight then .ok []
      else
        let start := startHeight.toNat
        if ascending then
          let last := min (min (start + (limit - 1)) (2 ^ 64 - 1)) tipHeight.toNat
          blocksAt db ((List.range (last + 1 - start)).map fun i => UInt64.ofNat (start + i))
        else blocksAt db ((List.range (min limit (start + 1))).map fun i => UInt64.ofNat (start - i))

/-- The walk of `query_canonical_chain` from a block at a height down, highest block first. -/
def canonicalWalk : Nat → Hash256 → Except ChainQueryError (List (Block × Nat))
  | 0, cur =>
    match db.getBlock cur with
    | .error e => .error (.storage e)
    | .ok none => .error (.inconsistentState "missing block on canonical path")
    | .ok (some block) => .ok [(block, 0)]
  | height + 1, cur =>
    match db.getBlock cur with
    | .error e => .error (.storage e)
    | .ok none => .error (.inconsistentState "missing block on canonical path")
    | .ok (some block) =>
      if block.header.previousBlockHash = Hash256.zero ∨ block.header.previousBlockHash = cur then
        .ok [(block, height + 1)]
      else match canonicalWalk height block.header.previousBlockHash with
        | .error e => .error e
        | .ok path => .ok ((block, height + 1) :: path)

def queryCanonicalChain : Except ChainQueryError (List (Block × Nat)) :=
  match db.getCanonicalTip with
  | none => .error (.inconsistentState "no canonical tip")
  | some (tipHash, tipHeight) => (canonicalWalk db tipHeight.toNat tipHash).map List.reverse

end

end Scytale
