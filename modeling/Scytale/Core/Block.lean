/-
  Scytale.Core.Block — headers, blocks and the structural check
  (crates/scytale-core/src/block.rs).
-/
import Scytale.Core.Transaction

namespace Scytale

open Lib

structure BlockHeader where
  version : UInt32
  previousBlockHash : Hash256
  transactionCommitment : Hash256
  utxoRoot : Hash256
  timestamp : UInt64
  difficultyTarget : UInt32
  nonce : UInt64
  deriving DecidableEq

namespace BlockHeader

/-- The fields in order, each of fixed size: encoding a header cannot fail. -/
def canonicalBytes (h : BlockHeader) : Bytes :=
  u32le h.version ++ h.previousBlockHash.bytes ++ h.transactionCommitment.bytes ++ h.utxoRoot.bytes ++
    u64le h.timestamp ++ u32le h.difficultyTarget ++ u64le h.nonce

def hash (H : Hasher) (h : BlockHeader) : Hash256 := H h.canonicalBytes

end BlockHeader

structure Block where
  header : BlockHeader
  transactions : List Transaction
  deriving DecidableEq

inductive BlockError where
  | emptyTransactionVector
  | missingCoinbase
  | duplicateCoinbase (index : Nat)
  | transactionError (e : TransactionError)
  | invalidUtxoRoot (expected actual : Hash256)
  deriving DecidableEq

namespace Block

/-- Every transaction of the block has an identifier. -/
def encodable (b : Block) : Bool := b.transactions.all Transaction.encodable

/-- The loop over the transactions after the first. -/
def validateRest : Nat → List Transaction → Except BlockError Unit
  | _, [] => .ok ()
  | idx, tx :: txs =>
    if tx.isCoinbase then .error (.duplicateCoinbase idx)
    else match tx.validateStateless with
      | .error e => .error (.transactionError e)
      | .ok () => validateRest (idx + 1) txs

def validateStructure (b : Block) : Except BlockError Unit :=
  match b.transactions with
  | [] => .error .emptyTransactionVector
  | cb :: txs => if !cb.isCoinbase then .error .missingCoinbase else validateRest 1 txs

end Block

end Scytale
