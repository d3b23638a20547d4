/-
  Scytale.Consensus.Chain — the chain tree and fork choice
  (crates/scytale-consensus/src/chain.rs).

  `processBlockWithVerifier` is the whole of `process_block_with_verifier`, cut into the
  functions below in the order the source runs them: the invalid-block cache, the
  structure, the parent, the header checks (`checkHeader`), the parent's state, the median
  time, the authoritative checks, the new node (`newNode`), and fork choice (`forkChoice`).
  The wall clock is an argument; `none` is a clock before the epoch.

  What the source formats into an error's text is kept as the value it formats. A panic is
  the error `panicked`: it leaves the state as it is. The loops over parent links take
  their fuel from the node's height (`Lib.Ancestry`).
-/
import Scytale.Lib.Ancestry
import Scytale.Core.Utxo
import Scytale.Consensus.Work
import Scytale.Consensus.Difficulty
import Scytale.Consensus.Subsidy

namespace Scytale

open Lib

def maxFutureDrift : UInt64 := 7200

/-- What a node's checks of a block's spends report (apps/scytale-node/src/error.rs). -/
inductive SpendError where
  | missingUtxo (o : OutPoint)
  | invalidScript (text : String)
  | scriptEvaluationFailed
  | eutxoValidation (text : String)
  | blockGasLimitExceeded (consumed limit : UInt64)
  | inconsistentState (e : UtxoError)
  | panicked
  deriving DecidableEq

/-- What `TransactionVerification` formats. -/
inductive VerificationCause where
  | block (e : BlockError)
  | spend (e : SpendError)
  | utxo (e : UtxoError)
  | transaction (e : TransactionError)
  | text (s : String)
  deriving DecidableEq

inductive ConsensusError where
  | pow (e : PowError)
  | difficulty (e : DifficultyError)
  | chain (text : String)
  | invalidTarget
  | blockPoWInvalid
  | invalidReward
  | invalidCoinbaseReward (subsidy fees output : UInt64)
  | invalidTransactionCommitment (expected actual : Hash256)
  | transactionVerification (cause : VerificationCause)
  | lockTimeNotMet
  deriving DecidableEq

/-- What `ReorgFailed` formats. -/
inductive ReorgCause where
  | utxo (e : UtxoError)
  | consensus (e : ConsensusError)
  | verifier (e : ConsensusError)
  | utxoRoot (expected actual : Hash256)
  deriving DecidableEq

inductive ChainError where
  | difficulty (e : DifficultyError)
  | invalidPoW (e : PowError)
  | invalidBranchBlock (hash : Hash256) (reason : String)
  | commonAncestorNotFound (tipA tipB : Hash256)
  | reorgFailed (hash : Hash256) (error : ReorgCause)
  | reorgDepthExceeded (depth max : UInt64)
  | corruptedLinkage (parent : Hash256)
  | workOverflow
  | blockError (e : BlockError)
  | invalidCoinbaseReward (subsidy fees output : UInt64)
  | invalidTransactionCommitment (expected actual : Hash256)
  | invalidTimestamp (text : String)
  | nonMonotonicTimestamp
  | blockTooFarInFuture
  | timestampBeforeMedianTimePast
  | panicked
  deriving DecidableEq

/-! ## The authoritative checks -/

/-- The timestamps of the last eleven headers before `currentIndex`, sorted; the middle
    one. -/
def calculateMedianTimePast (headers : List BlockHeader) (currentIndex : Nat) : UInt64 :=
  let stop := min currentIndex headers.length
  let timestamps := ((headers.take stop).drop (stop - 11)).map BlockHeader.timestamp
  if timestamps.isEmpty then 0
  else (timestamps.insertionSort (· ≤ ·)).getD (timestamps.length / 2) 0

def validateLockTime (tx : Transaction) (blockHeight mtp : UInt64) : Except ConsensusError Unit :=
  if tx.lockTime = 0 ∨ tx.inputs.all (fun i => i.sequence == 0xffffffff) = true then .ok ()
  else if tx.lockTime < 500000000 then
    if tx.lockTime > blockHeight then .error .lockTimeNotMet else .ok ()
  else if tx.lockTime > mtp then .error .lockTimeNotMet
  else .ok ()

def validateLockTimes (blockHeight mtp : UInt64) : List Transaction → Except ConsensusError Unit
  | [] => .ok ()
  | tx :: txs =>
    match validateLockTime tx blockHeight mtp with
    | .error e => .error e
    | .ok () => validateLockTimes blockHeight mtp txs

section
variable (H : Hasher)

/-- The digest of the transaction identifiers. -/
def transactionCommitment (b : Block) : Hash256 := H (b.transactions.flatMap fun t => (t.txid H).bytes)

/-- The coinbase pays at most the subsidy and the fees. -/
def checkReward (block : Block) (height totalFees : UInt64) : Except ConsensusError UInt64 :=
  match (block.transactions.headD ⟨0, [], [], 0⟩).totalOutputQuanta with
  | .error e => .error (.transactionVerification (.transaction e))
  | .ok coinbaseOutput =>
    match checkedAdd (getBlockSubsidy height) totalFees with
    | none => .error (.transactionVerification (.text "coinbase reward overflow"))
    | some maximumReward =>
      if coinbaseOutput > maximumReward then
        .error (.invalidCoinbaseReward (getBlockSubsidy height) totalFees coinbaseOutput)
      else .ok totalFees

/-- Identifiers are computed for the commitment, where a transaction that is not encodable
    panics; `admitBlock`, the caller that can meet one, says so. -/
def validateBlockAuthoritativeWithHeaders (block : Block) (height : UInt64) (parentUtxo : UtxoSet)
    (headers : List BlockHeader) : Except ConsensusError UInt64 :=
  match block.validateStructure with
  | .error e => .error (.transactionVerification (.block e))
  | .ok () =>
    if block.header.transactionCommitment ≠ transactionCommitment H block then
      .error (.invalidTransactionCommitment (transactionCommitment H block) block.header.transactionCommitment)
    else match validateLockTimes height (calculateMedianTimePast headers headers.length) block.transactions.tail with
      | .error e => .error e
      | .ok () =>
        match UtxoSet.applyBlock H parentUtxo block.transactions height with
        | .error e => .error (.transactionVerification (.utxo e))
        | .ok (_, totalFees) => checkReward block height totalFees

def validateBlockAuthoritative (block : Block) (height : UInt64) (parentUtxo : UtxoSet) : Except ConsensusError UInt64 :=
  validateBlockAuthoritativeWithHeaders H block height parentUtxo []

end

/-- `BlockTransactionVerifier`: the contextual check a caller supplies. -/
abbrev Verifier := Block → UtxoSet → Except ConsensusError Unit

/-- The height in the coinbase's authorization, 0 when it has none. -/
def coinbaseHeight (block : Block) : UInt64 :=
  match block.transactions.head? with
  | none => 0
  | some coinbase =>
    match coinbase.inputs.head? with
    | none => 0
    | some input => if input.authorization.length < 8 then 0 else UInt64.ofNat (leNat (input.authorization.take 8))

/-- `AuthoritativeTransactionVerifier`. -/
def authoritativeTransactionVerifier (H : Hasher) : Verifier := fun block utxoSet =>
  match validateBlockAuthoritative H block (coinbaseHeight block) utxoSet with
  | .error e => .error e
  | .ok _ => .ok ()

/-! ## The tree -/

structure BlockNode where
  hash : Hash256
  parentHash : Hash256
  height : UInt64
  blockWork : CumulativeWork
  cumulativeWork : CumulativeWork
  block : Block
  deriving DecidableEq

structure ReorgResult where
  oldTip : Hash256
  newTip : Hash256
  disconnectedBlocks : List Block
  connectedBlocks : List Block
  transactionsForMempool : List Transaction
  deriving DecidableEq

def defaultMaxReorgDepth : UInt64 := 100

structure ChainTree where
  nodes : Table Hash256 BlockNode
  canonicalTip : Hash256
  maxReorgDepth : UInt64
  invalidBlocks : Table Hash256 Unit
  deriving DecidableEq

/-- The node of the genesis block: height 0, and its own work as cumulative work. -/
def genesisNode (H : Hasher) (genesis : Block) : BlockNode :=
  let bWork := blockWork (Target.fromCompact genesis.header.difficultyTarget)
  ⟨genesis.header.hash H, genesis.header.previousBlockHash, 0, bWork, bWork, genesis⟩

namespace ChainTree

def new (H : Hasher) (genesis : Block) : ChainTree :=
  let hash := genesis.header.hash H
  ⟨(∅ : Table Hash256 BlockNode).insert hash (genesisNode H genesis), hash, defaultMaxReorgDepth, ∅⟩

def withMaxReorgDepth (t : ChainTree) (d : UInt64) : ChainTree := { t with maxReorgDepth := d }

def getNode (t : ChainTree) (hash : Hash256) : Option BlockNode := t.nodes[hash]?

def canonicalHeight (t : ChainTree) : UInt64 := ((t.getNode t.canonicalTip).map (·.height)).getD 0

def canonicalWork (t : ChainTree) : CumulativeWork :=
  ((t.getNode t.canonicalTip).map (·.cumulativeWork)).getD CumulativeWork.zero

def isBlockInvalid (t : ChainTree) (hash : Hash256) : Bool := t.invalidBlocks.contains hash

def markBlockInvalid (t : ChainTree) (hash : Hash256) : ChainTree :=
  { t with invalidBlocks := t.invalidBlocks.insert hash () }

def insertNode (t : ChainTree) (n : BlockNode) : ChainTree := { t with nodes := t.nodes.insert n.hash n }

/-- The walk from a stored block back to height 0, the block first. -/
def walkBack (t : ChainTree) (hash : Hash256) : List (Hash256 × BlockNode) :=
  Ancestry.chain BlockNode.parentHash (fun n => n.height.toNat) t.getNode hash

/-- The walk from a stored block back to an ancestor, the ancestor excluded. -/
def walkUpto (t : ChainTree) (hash ancestor : Hash256) : List BlockNode :=
  (Ancestry.upto BlockNode.parentHash (fun n => n.height.toNat) t.getNode hash ancestor).map (·.2)

def findCommonAncestor (t : ChainTree) (tipA tipB : Hash256) : Except ChainError Hash256 :=
  match Ancestry.commonAncestor BlockNode.parentHash (fun n => n.height.toNat) t.getNode tipA tipB with
  | some c => .ok c
  | none => .error (.commonAncestorNotFound tipA tipB)

/-- The blocks from genesis to `tip`, in order. -/
def getPathFromGenesis (t : ChainTree) (tip : Hash256) : List BlockNode := ((t.walkBack tip).map (·.2)).reverse

def headersTo (t : ChainTree) (tip : Hash256) : List BlockHeader := (t.getPathFromGenesis tip).map (·.block.header)

end ChainTree

/-- What `process_block_with_verifier` works on: the tree, and the caller's UTXO set. -/
structure ChainState where
  tree : ChainTree
  utxo : UtxoSet
  deriving DecidableEq

section
variable (H : Hasher)

/-- Applying the blocks of a path one after the other. -/
def replay : UtxoSet → List BlockNode → Except ChainError UtxoSet
  | s, [] => .ok s
  | s, n :: ns =>
    match n.block.transactions with
    | [] => .error .panicked
    | coinbase :: txs =>
      match UtxoSet.applyBlockTransactions H s coinbase txs n.height with
      | .error e => .error (.reorgFailed n.hash (.utxo e))
      | .ok (s', _) => replay s' ns

/-- The target a child of `parent` must name: the parent's, or at an epoch boundary the
    retargeted one. `path` leads from genesis to the parent. -/
def expectedTarget (path : List BlockNode) (parent : BlockNode) : Except ChainError Target :=
  let height := parent.height + 1
  let current := Target.fromCompact parent.block.header.difficultyTarget
  if height ≥ defaultDifficultyEpochBlocks ∧ height % defaultDifficultyEpochBlocks = 0 then
    match path[path.length - (defaultDifficultyEpochBlocks.toNat + 1)]? with
    | none => .error (.invalidTimestamp "missing DAA epoch history")
    | some node =>
      match calculateNextTarget current node.block.header.timestamp parent.block.header.timestamp
          DifficultyConfig.default with
      | .error e => .error (.difficulty e)
      | .ok target => .ok target
  else .ok current

def checkTarget (path : List BlockNode) (parent : BlockNode) (header : BlockHeader) : Except ChainError Target :=
  match expectedTarget path parent with
  | .error e => .error e
  | .ok expected =>
    match validateBlockTarget header expected with
    | .error e => .error (.difficulty e)
    | .ok () => .ok expected

/-- Target, proof of work and timestamps. -/
def checkHeader (path : List BlockNode) (parent : BlockNode) (header : BlockHeader) (now : Option UInt64) :
    Except ChainError Unit :=
  match checkTarget path parent header with
  | .error e => .error e
  | .ok expected =>
    match verifyPow H header expected with
    | .error e => .error (.invalidPoW e)
    | .ok () =>
      if header.timestamp ≤ parent.block.header.timestamp then .error .nonMonotonicTimestamp
      else match now with
        | none => .error (.invalidTimestamp "system clock before epoch")
        | some now =>
          -- `saturating_add`
          if header.timestamp.toNat > min (now.toNat + maxFutureDrift.toNat) (2 ^ 64 - 1) then
            .error .blockTooFarInFuture
          else .ok ()

def checkMedianTime (headers : List BlockHeader) (header : BlockHeader) : Except ChainError Unit :=
  if headers.isEmpty = false ∧ header.timestamp < calculateMedianTimePast headers headers.length then
    .error .timestampBeforeMedianTimePast
  else .ok ()

/-- The node of a block under its parent; `none` when the work overflows. -/
def newNode (parent : BlockNode) (block : Block) : Option BlockNode :=
  let bWork := blockWork (Target.fromCompact block.header.difficultyTarget)
  match parent.cumulativeWork.checkedAdd bWork with
  | none => none
  | some cumWork =>
    some ⟨block.header.hash H, block.header.previousBlockHash, parent.height + 1, bWork, cumWork, block⟩

/-- The state at a stored block: the caller's set at the tip, else a replay. -/
def ChainTree.parentUtxo (t : ChainTree) (utxo : UtxoSet) (parentHash : Hash256) : Except ChainError UtxoSet :=
  if parentHash = t.canonicalTip then .ok utxo else replay H UtxoSet.new (t.getPathFromGenesis parentHash)

def ConsensusError.toChain (hash : Hash256) : ConsensusError → ChainError
  | .invalidCoinbaseReward subsidy fees output => .invalidCoinbaseReward subsidy fees output
  | .invalidTransactionCommitment expected actual => .invalidTransactionCommitment expected actual
  | e => .reorgFailed hash (.consensus e)

/-- One block of the connected branch against the staged state, `headers` those of its
    parent's path. -/
def connectNode (headers : List BlockHeader) (verifier : Verifier) (staged : UtxoSet) (n : BlockNode) :
    Except ChainError UtxoSet :=
  match validateBlockAuthoritativeWithHeaders H n.block n.height staged headers with
  | .error e => .error (e.toChain n.hash)
  | .ok _ =>
    match verifier n.block staged with
    | .error e => .error (.reorgFailed n.hash (.verifier e))
    | .ok () =>
      match replay H staged [n] with
      | .error e => .error e
      | .ok staged' =>
        if n.block.header.utxoRoot ≠ staged'.computeUtxoRoot H then
          .error (.reorgFailed n.hash (.utxoRoot n.block.header.utxoRoot (staged'.computeUtxoRoot H)))
        else .ok staged'

/-- The connected branch in order; an error comes with the block it stopped at. -/
def connectNodes (t : ChainTree) (verifier : Verifier) : UtxoSet → List BlockNode →
    Except (Hash256 × ChainError) UtxoSet
  | s, [] => .ok s
  | s, n :: ns =>
    match connectNode H (t.headersTo n.parentHash) verifier s n with
    | .error e => .error (n.hash, e)
    | .ok s' => connectNodes t verifier s' ns

/-- The transactions of the disconnected blocks that the connected ones do not have. -/
def transactionsForMempool (disconnected connected : List Block) : List Transaction :=
  let connectedTxids := connected.flatMap fun b => b.transactions.map fun t => t.txid H
  disconnected.flatMap fun b => b.transactions.tail.filter fun t => !connectedTxids.contains (t.txid H)

/-- From the work comparison on. -/
def forkChoice (st : ChainState) (verifier : Verifier) (node : BlockNode) :
    ChainState × Except ChainError (Option ReorgResult) :=
  match st.tree.getNode st.tree.canonicalTip with
  | none => (st, .error .panicked)
  | some tipNode =>
    if node.cumulativeWork.le tipNode.cumulativeWork then ({ st with tree := st.tree.insertNode node }, .ok none)
    else
      let oldTip := st.tree.canonicalTip
      match st.tree.findCommonAncestor oldTip node.parentHash with
      | .error e => (st, .error e)
      | .ok ancestor =>
        let disconnected := (st.tree.walkUpto oldTip ancestor).map (·.block)
        let depth := UInt64.ofNat disconnected.length
        if depth > st.tree.maxReorgDepth then
          ({ st with tree := st.tree.insertNode node }, .error (.reorgDepthExceeded depth st.tree.maxReorgDepth))
        else
          let connected := (st.tree.walkUpto node.parentHash ancestor).reverse ++ [node]
          match st.tree.parentUtxo H st.utxo ancestor with
          | .error e => (st, .error e)
          | .ok staged =>
            match connectNodes H st.tree verifier staged connected with
            | .error (bad, e) =>
              ({ st with tree := (st.tree.markBlockInvalid bad).markBlockInvalid node.hash }, .error e)
            | .ok utxo =>
              (⟨{ st.tree.insertNode node with canonicalTip := node.hash }, utxo⟩,
                .ok (some ⟨oldTip, node.hash, disconnected, connected.map (·.block),
                  transactionsForMempool H disconnected (connected.map (·.block))⟩))

/-- From the block's transactions on, once its header passed. -/
def admitBlock (st : ChainState) (verifier : Verifier) (parent : BlockNode) (block : Block) :
    ChainState × Except ChainError (Option ReorgResult) :=
  let headers := st.tree.headersTo block.header.previousBlockHash
  match st.tree.parentUtxo H st.utxo block.header.previousBlockHash with
  | .error e => (st, .error e)
  | .ok parentUtxo =>
    match checkMedianTime headers block.header with
    | .error e => (st, .error e)
    | .ok () =>
      if !block.encodable then (st, .error .panicked)
      else match validateBlockAuthoritativeWithHeaders H block (parent.height + 1) parentUtxo headers with
        | .error e =>
          ({ st with tree := st.tree.markBlockInvalid (block.header.hash H) }, .error (e.toChain (block.header.hash H)))
        | .ok _ =>
          match newNode H parent block with
          | none => (st, .error .workOverflow)
          | some node => forkChoice H st verifier node

def processBlockWithVerifier (verifier : Verifier) (now : Option UInt64) (st : ChainState) (block : Block) :
    ChainState × Except ChainError (Option ReorgResult) :=
  let blockHash := block.header.hash H
  let parentHash := block.header.previousBlockHash
  if st.tree.isBlockInvalid blockHash then (st, .error (.invalidBranchBlock blockHash "Block is marked as invalid"))
  else if st.tree.isBlockInvalid parentHash then
    ({ st with tree := st.tree.markBlockInvalid blockHash },
      .error (.invalidBranchBlock blockHash "Parent block is marked as invalid"))
  else match block.validateStructure with
    | .error e => (st, .error (.blockError e))
    | .ok () =>
      if st.tree.nodes.contains blockHash then (st, .ok none)
      else match st.tree.getNode parentHash with
        | none => (st, .error (.corruptedLinkage parentHash))
        | some parent =>
          match checkHeader H (st.tree.getPathFromGenesis parentHash) parent block.header now with
          | .error e => (st, .error e)
          | .ok () => admitBlock H st verifier parent block

def processBlock (now : Option UInt64) (st : ChainState) (block : Block) :
    ChainState × Except ChainError (Option ReorgResult) :=
  processBlockWithVerifier H (authoritativeTransactionVerifier H) now st block

end

end Scytale
