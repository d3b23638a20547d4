/-
  Scytale.Node.Submit — a node's checks of a block and its submission
  (apps/scytale-node/src/node.rs).

  A node holds the chain tree with its UTXO set, the storage and the mempool.
  `submitExternalBlock` is the whole of `submit_external_block` on these: the record of
  invalid blocks, the staged validation of an extension (path A) or of a challenger branch
  (path B), the call on the tree, the write to storage, whose failure puts tree and set
  back, and the news to the mempool. The indexers are told as well and decide nothing here.

  `fault` is an error redb reports during the call. A panic is the error `panicked`.
-/
import Scytale.Core.Genesis
import Scytale.Core.Authorization
import Scytale.Consensus.Replay
import Scytale.Storage.Engine
import Scytale.Mempool.Pool

namespace Scytale

open Lib

def maxTxGas : UInt64 := 5000000

def maxBlockGas : UInt64 := 50000000

inductive NodeError where
  | consensus (e : ChainError)
  | spend (e : SpendError)
  /-- The replay to a fork point failed. -/
  | inconsistentState (e : ChainError)
  | storage (e : StorageError)
  deriving DecidableEq

/-! ## The checks of a block's spends -/

section
variable (H : Hasher) (eng : Engines)

/-- The loop over the inputs, from index `idx` on. -/
def verifyInputScripts (tx : Transaction) (height : UInt64) (utxos : UtxoSet) : Nat → List TxIn → Except SpendError Unit
  | _, [] => .ok ()
  | idx, input :: inputs =>
    match utxos.entries[input.previousOutput]? with
    | none => .error (.missingUtxo input.previousOutput)
    | some utxo =>
      if isContractLock utxo.output.lockingCondition then verifyInputScripts tx height utxos (idx + 1) inputs
      else match eng.execute input.authorization utxo.output.lockingCondition
          (tx.computeSighash H idx utxo.output.lockingCondition) height with
        | .error text => .error (.invalidScript text)
        | .ok false => .error .scriptEvaluationFailed
        | .ok true => verifyInputScripts tx height utxos (idx + 1) inputs

def verifyTransactionScripts (tx : Transaction) (height : UInt64) (utxos : UtxoSet) : Except SpendError Unit :=
  if tx.isCoinbase then .ok () else verifyInputScripts H eng tx height utxos 0 tx.inputs

/-- What is checked of one spend, with the gas used so far; the gas used after it. -/
def verifySpend (height blockTime : UInt64) (staged : UtxoSet) (gas : UInt64) (tx : Transaction) :
    Except SpendError UInt64 :=
  match verifyTransactionScripts H eng tx height staged with
  | .error e => .error e
  | .ok () =>
    match eng.verifyTransactionEutxo tx blockTime staged maxTxGas with
    | .error text => .error (.eutxoValidation text)
    | .ok txGas =>
      -- `saturating_add`
      let consumed := UInt64.ofNat (min (gas.toNat + txGas.toNat) (2 ^ 64 - 1))
      if consumed > maxBlockGas then .error (.blockGasLimitExceeded consumed maxBlockGas) else .ok consumed

/-- The loop over the transactions: each spend is checked and its inputs removed, then the
    outputs go in. -/
def validateTransactions (height blockTime : UInt64) : UtxoSet → UInt64 → List Transaction → Except SpendError UtxoSet
  | staged, _, [] => .ok staged
  | staged, gas, tx :: txs =>
    let checked : Except SpendError (UtxoSet × UInt64) :=
      if tx.isCoinbase then .ok (staged, gas)
      else match verifySpend H eng height blockTime staged gas tx with
        | .error e => .error e
        | .ok gas => .ok (staged.removeInputs tx.inputs, gas)
    match checked with
    | .error e => .error e
    | .ok (staged, gas) =>
      if !tx.encodable then .error .panicked
      else match UtxoSet.insertAll staged (UtxoSet.created H height tx.isCoinbase tx) with
        | (_, .error e) => .error (.inconsistentState e)
        | (staged, .ok ()) => validateTransactions height blockTime staged gas txs

def validateBlockTransactions (block : Block) (height blockTime : UInt64) (staged : UtxoSet) : Except SpendError UtxoSet :=
  validateTransactions H eng height blockTime staged 0 block.transactions

/-- The height in the first transaction's authorization, if it is a coinbase and long
    enough. -/
def nodeBlockHeight (block : Block) : UInt64 :=
  match block.transactions.head? with
  | none => 0
  | some cb => if cb.isCoinbase then coinbaseHeight block else 0

/-- `NodeBlockVerifier`. -/
def nodeBlockVerifier : Verifier := fun block utxoSet =>
  match validateBlockTransactions H eng block (nodeBlockHeight block) block.header.timestamp utxoSet with
  | .error e => .error (.transactionVerification (.spend e))
  | .ok _ => .ok ()

/-- A block's transactions and the root of the set they lead to. -/
def stageBlock (block : Block) (height : UInt64) (staged : UtxoSet) : Except NodeError UtxoSet :=
  match validateBlockTransactions H eng block height block.header.timestamp staged with
  | .error e => .error (.spend e)
  | .ok staged =>
    if block.header.utxoRoot ≠ staged.computeUtxoRoot H then
      .error (.consensus (.blockError (.invalidUtxoRoot block.header.utxoRoot (staged.computeUtxoRoot H))))
    else .ok staged

def stageNodes : UtxoSet → List BlockNode → Except NodeError UtxoSet
  | staged, [] => .ok staged
  | staged, n :: ns =>
    match stageBlock H eng n.block n.height staged with
    | .error e => .error e
    | .ok staged => stageNodes staged ns

/-- The challenger branch from the common ancestor to the candidate. -/
def preValidateReorgBranch (chain : ChainState) (candidate : Block) : Except NodeError Unit :=
  let parentHash := candidate.header.previousBlockHash
  match chain.tree.findCommonAncestor chain.tree.canonicalTip parentHash with
  | .error e => .error (.consensus e)
  | .ok ancestor =>
    match chain.tree.parentUtxo H chain.utxo ancestor with
    | .error e => .error (.inconsistentState e)
    | .ok staged =>
      match stageNodes H eng staged (chain.tree.walkUpto parentHash ancestor).reverse with
      | .error e => .error e
      | .ok staged =>
        let height := ((chain.tree.getNode parentHash).map fun n => n.height + 1).getD 1
        match stageBlock H eng candidate height staged with
        | .error e => .error e
        | .ok _ => .ok ()

/-- Path A or path B. -/
def preValidate (chain : ChainState) (block : Block) : Except NodeError Unit :=
  if block.header.previousBlockHash = chain.tree.canonicalTip then
    match stageBlock H eng block (chain.tree.canonicalHeight + 1) chain.utxo with
    | .error e => .error e
    | .ok _ => .ok ()
  else preValidateReorgBranch H eng chain block

end

/-! ## The node -/

structure Node where
  chain : ChainState
  storage : StorageEngine
  mempool : Mempool
  deriving DecidableEq

/-- A write transaction during which redb may report an error. -/
def writeTx (fault : Option StorageError) (r : Except StorageError StorageEngine) : Except StorageError StorageEngine :=
  match fault with
  | some e => .error e
  | none => r

theorem writeTx_ok {fault : Option StorageError} {r : Except StorageError StorageEngine} {db : StorageEngine}
    (h : writeTx fault r = .ok db) : r = .ok db := by
  cases fault with
  | some e => cases h
  | none => exact h

def NodeError.isPanic : NodeError → Bool
  | .spend .panicked => true
  | .inconsistentState .panicked => true
  | _ => false

section
variable (H : Hasher) (eng : Engines)

/-- What a connected block is stored with. -/
def connectedMeta (tree : ChainTree) (height : UInt64) (b : Block) : Block × UInt64 × CumulativeWork :=
  match tree.getNode (b.header.hash H) with
  | some n => (b, n.height, n.cumulativeWork)
  | none => (b, height, tree.canonicalWork)

/-- The write that follows a change of the tip to a block at `height`. -/
def storeReorg (db : StorageEngine) (tree : ChainTree) (height : UInt64) (block : Block) (reorg : ReorgResult) :
    Except StorageError StorageEngine :=
  if reorg.disconnectedBlocks.isEmpty then db.commitBlock H block height tree.canonicalWork
  else db.applyReorganization H reorg.disconnectedBlocks (reorg.connectedBlocks.map (connectedMeta H tree height))

/-- What the pool makes of a block that moved the tip to `chain`; the clock is read again,
    and stands at 0 before the epoch. -/
def mempoolAfter (mempool : Mempool) (chain : ChainState) (height : UInt64) (now : Option UInt64) (block : Block)
    (reorg : ReorgResult) : Mempool :=
  let mempool := if reorg.disconnectedBlocks.isEmpty then mempool
    else (mempool.onReorg H reorg.transactionsForMempool chain.utxo (consensusScriptVerifier eng height) (now.getD 0)).1
  mempool.onBlockConnected H block chain.utxo

def submitExternalBlock (now : Option UInt64) (fault : Option StorageError) (node : Node) (block : Block) :
    Node × Except NodeError Bool :=
  let blockHash := block.header.hash H
  if node.chain.tree.isBlockInvalid blockHash || node.chain.tree.isBlockInvalid block.header.previousBlockHash then
    (node, .error (.consensus (.invalidBranchBlock blockHash "Block or ancestor is marked as invalid")))
  else match preValidate H eng node.chain block with
    | .error e =>
      if e.isPanic then (node, .error e)
      else ({ node with chain := { node.chain with tree := node.chain.tree.markBlockInvalid blockHash } }, .error e)
    | .ok () =>
      match processBlockWithVerifier H (nodeBlockVerifier H eng) now node.chain block with
      | (chain, .error e) => ({ node with chain := chain }, .error (.consensus e))
      | (chain, .ok none) => ({ node with chain := chain }, .ok false)
      | (chain, .ok (some reorg)) =>
        match writeTx fault (storeReorg H node.storage chain.tree chain.tree.canonicalHeight block reorg) with
        | .error e => (node, .error (.storage e))
        | .ok db =>
          (⟨chain, db, mempoolAfter H eng node.mempool chain chain.tree.canonicalHeight now block reorg⟩, .ok true)

/-- `recover` on a database without a tip: the genesis block, committed and applied. -/
def initGenesis (genesisDifficultyTarget : UInt32) (maxReorgDepth : UInt64) (fault : Option StorageError)
    (storage : StorageEngine) : Except NodeError Node :=
  let genesis := buildGenesisBlock H genesisDifficultyTarget
  let tree := (ChainTree.new H genesis).withMaxReorgDepth maxReorgDepth
  match writeTx fault (storage.commitBlock H genesis tree.canonicalHeight tree.canonicalWork) with
  | .error e => .error (.storage e)
  | .ok db =>
    match UtxoSet.applyCoinbase H UtxoSet.new buildGenesisCoinbase 0 with
    | (_, .error e) => .error (.spend (.inconsistentState e))
    | (utxo, .ok ()) => .ok ⟨⟨tree, utxo⟩, db, Mempool.new⟩

/-- A fresh node. -/
def recoverFresh (genesisDifficultyTarget : UInt32) (maxReorgDepth : UInt64) (fault : Option StorageError) :
    Except NodeError Node := initGenesis H genesisDifficultyTarget maxReorgDepth fault StorageEngine.empty

end

/-! ## A fresh node

Its target is one every header meets; two blocks with a coinbase only, of which the engines
are never asked. The concrete runs of nodes in this development start here. -/

/-- Engines that accept everything, at no cost. -/
def acceptAll : Engines := ⟨fun _ _ _ _ => .ok true, fun _ _ _ _ => .ok 0⟩

def freshNode (H : Hasher) : Node :=
  (recoverFresh H easyBits defaultMaxReorgDepth none).toOption.getD ⟨sampleStart H, StorageEngine.empty, Mempool.new⟩

theorem freshNode_recovered : recoverFresh Blake3.digest easyBits defaultMaxReorgDepth none =
    .ok (freshNode Blake3.digest) := by decide +kernel

/-- The coinbase-only block that pays to `script` on a block that left `parentUtxo`. -/
def payingBlock (H : Hasher) (previous : Hash256) (parentUtxo : UtxoSet) (height timestamp : UInt64) (script : Bytes) :
    Block :=
  mined H previous parentUtxo height timestamp [Transaction.newCoinbase height [⟨2500000000, script⟩]]

def firstBlock (H : Hasher) : Block :=
  payingBlock H (freshNode H).chain.tree.canonicalTip (freshNode H).chain.utxo 1 60 [0x51]

/-- The node that took the first block. -/
def firstNode (H : Hasher) : Node := (submitExternalBlock H acceptAll (some 1000) none (freshNode H) (firstBlock H)).1

def secondBlock (H : Hasher) : Block :=
  payingBlock H ((firstBlock H).header.hash H) (firstNode H).chain.utxo 2 120 [0x51]

end Scytale
