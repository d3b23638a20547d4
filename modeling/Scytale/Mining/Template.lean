/-
  Scytale.Mining.Template — candidate blocks (crates/scytale-mining/src/worker.rs).

  `buildTemplate` is `build_template`: the transactions the mempool offers, those whose
  inputs are there, a coinbase that collects the subsidy and their recorded fees, and the
  root of the set the block leads to. A transaction that cannot be encoded has no
  identifier; computing one panics.
-/
import Scytale.Mempool.Pool
import Scytale.Consensus.Chain

namespace Scytale

open Lib

def maxBlockPayloadSize : Nat := 2000000

inductive MiningError where
  | canonicalTipMissing
  | arithmeticOverflow
  | panicked
  deriving DecidableEq

structure BlockTemplate where
  previousBlockHash : Hash256
  height : UInt64
  compactTarget : UInt32
  transactions : List Transaction
  utxoRoot : Hash256
  timestamp : UInt64
  deriving DecidableEq

namespace BlockTemplate

variable (H : Hasher)

def computeTransactionCommitment (t : BlockTemplate) : Hash256 :=
  let combined := t.transactions.flatMap fun tx => (tx.txid H).bytes
  if combined.isEmpty then Hash256.zero else H combined

def buildHeader (t : BlockTemplate) (nonce : UInt64) : BlockHeader :=
  ⟨1, t.previousBlockHash, t.computeTransactionCommitment H, t.utxoRoot, t.timestamp, t.compactTarget, nonce⟩

def assembleBlock (t : BlockTemplate) (solvedHeader : BlockHeader) : Block := ⟨solvedHeader, t.transactions⟩

end BlockTemplate

/-- The loop over the offered transactions: those taken, their fees, what they spend. -/
structure Picked where
  selectedTxs : List Transaction
  totalFees : UInt64
  spentOutputs : Table OutPoint Unit

section
variable (H : Hasher)

/-- Not spent by a transaction taken before, and unspent or an output of one. -/
def Picked.inputValid (s : Picked) (utxos : UtxoSet) (input : TxIn) : Bool :=
  !s.spentOutputs.contains input.previousOutput &&
    (utxos.entries.contains input.previousOutput ||
      s.selectedTxs.any fun stx => decide (stx.txid H = input.previousOutput.txid) &&
        decide (input.previousOutput.index.toNat < stx.outputs.length))

def Picked.pick (utxos : UtxoSet) (mempool : Mempool) (s : Picked) (tx : Transaction) : Picked :=
  if tx.inputs.all (s.inputValid H utxos) then
    ⟨s.selectedTxs ++ [tx],
      match mempool.get (tx.txid H) with
      -- `saturating_add`
      | some entry => UInt64.ofNat (min (s.totalFees.toNat + entry.fee.toNat) (2 ^ 64 - 1))
      | none => s.totalFees,
      tx.inputs.foldl (fun spent i => spent.insert i.previousOutput ()) s.spentOutputs⟩
  else s

def pickTransactions (utxos : UtxoSet) (mempool : Mempool) : Picked :=
  (mempool.selectTransactionsForBlock maxBlockPayloadSize).1.foldl (Picked.pick H utxos mempool) ⟨[], 0, ∅⟩

def buildTemplate (chain : ChainTree) (utxos : UtxoSet) (mempool : Mempool) (compactTarget : UInt32)
    (minerLockingCondition : Bytes) (timestamp : UInt64) : Except MiningError BlockTemplate :=
  match chain.getNode chain.canonicalTip with
  | none => .error .canonicalTipMissing
  | some tipNode =>
    let height := tipNode.height + 1
    -- `max` with the `saturating_add`
    let timestamp := max timestamp (UInt64.ofNat (min (tipNode.block.header.timestamp.toNat + 1) (2 ^ 64 - 1)))
    let picked := pickTransactions H utxos mempool
    if !picked.selectedTxs.all Transaction.encodable then .error .panicked
    else match checkedAdd (getBlockSubsidy height) picked.totalFees with
      | none => .error .arithmeticOverflow
      | some coinbaseValue =>
        let coinbase := Transaction.newCoinbase height [⟨coinbaseValue, minerLockingCondition⟩]
        let transactions := coinbase :: picked.selectedTxs
        match UtxoSet.applyBlock H utxos transactions height with
        | .error _ => .error .arithmeticOverflow
        | .ok (prospectiveUtxos, _) =>
          if !coinbase.encodable then .error .panicked
          else .ok ⟨chain.canonicalTip, height, compactTarget, transactions, prospectiveUtxos.computeUtxoRoot H, timestamp⟩

end

end Scytale
