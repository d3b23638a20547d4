/-
  Scytale.Node.Run — the operations of a node, what each does, and the nodes of all runs
  (apps/scytale-node/src/node.rs).

  Besides submitted blocks a node takes transactions, the blocks it mines itself and
  snapshots, and it is restarted from its storage.
  - `submit_outcome`: everything `submit_external_block` can do, said once.
  - `NodeReach` / `NodeRun`: the nodes of the runs of given operations from one node, and
    the nodes of all runs, with restarts.
  - `nodeRun_treeInv` / `runs_stateInv`: the tree of every node is rooted and checked;
    in runs without snapshots its set is the replay of its path.
-/
import Scytale.Node.Snapshot
import Scytale.Mining.Template
import Scytale.Consensus.Replay

namespace Scytale

open Lib

/-! ## The other operations -/

inductive TransactionRefusal where
  | spend (e : SpendError)
  | mempool (e : MempoolError)
  deriving DecidableEq

inductive RecoverError where
  | node (e : NodeError)
  | storage (e : StorageError)
  | missingBlock
  | pathLength
  | genesisUtxo (e : UtxoError)
  | consensus (e : ChainError)
  /-- The parent links form a cycle. -/
  | endless
  | panicked
  deriving DecidableEq

section
variable (H : Hasher) (eng : Engines)

def submitTransaction (now : Option UInt64) (node : Node) (tx : Transaction) :
    Node × Except TransactionRefusal Hash256 :=
  let height := node.chain.tree.canonicalHeight
  match verifyTransactionScripts H eng tx height node.chain.utxo with
  | .error e => (node, .error (.spend e))
  | .ok () =>
    match eng.verifyTransactionEutxo tx (now.getD 0) node.chain.utxo maxTxGas with
    | .error text => (node, .error (.spend (.eutxoValidation text)))
    | .ok _ =>
      match node.mempool.admitTransaction H tx node.chain.utxo (consensusScriptVerifier eng height) (now.getD 0) with
      | (mempool, .error e) => ({ node with mempool := mempool }, .error (.mempool e))
      | (mempool, .ok txid) => ({ node with mempool := mempool }, .ok txid)

/-- `mining_worker_loop` from a solved template on. -/
def mineBlock (now : Option UInt64) (fault : Option StorageError) (node : Node) (template : BlockTemplate) (nonce : UInt64) :
    Node × Except NodeError Bool :=
  let block := template.assembleBlock (template.buildHeader H nonce)
  if node.chain.tree.canonicalTip ≠ template.previousBlockHash then (node, .ok false)
  else match processBlockWithVerifier H (nodeBlockVerifier H eng) now node.chain block with
    | (chain, .error e) => ({ node with chain := chain }, .error (.consensus e))
    | (chain, .ok none) => ({ node with chain := chain }, .ok false)
    | (chain, .ok (some reorg)) =>
      match writeTx fault (storeReorg H node.storage chain.tree template.height block reorg) with
      | .error e => (node, .error (.storage e))
      | .ok db => (⟨chain, db, mempoolAfter H eng node.mempool chain template.height now block reorg⟩, .ok true)

/-- The stored blocks from `cur` back to the first; more blocks than are stored come only
    from a cycle. -/
def storedPath (db : StorageEngine) : Nat → Hash256 → Except RecoverError (List Block)
  | 0, _ => .error .endless
  | f + 1, cur =>
    match db.getBlock cur with
    | .error e => .error (.storage e)
    | .ok none => .error .missingBlock
    | .ok (some block) =>
      if block.header.previousBlockHash = Hash256.zero ∨ block.header.previousBlockHash = cur then .ok [block]
      else match storedPath db f block.header.previousBlockHash with
        | .error e => .error e
        | .ok path => .ok (block :: path)

/-- The stored blocks into a fresh tree; `clock i` is the time at the `i`th. -/
def replayStored (clock : Nat → Option UInt64) : Nat → ChainState → List Block → Except ChainError ChainState
  | _, st, [] => .ok st
  | i, st, b :: bs =>
    match processBlockWithVerifier H (nodeBlockVerifier H eng) (clock i) st b with
    | (_, .error e) => .error e
    | (st, .ok _) => replayStored clock (i + 1) st bs

def recover (clock : Nat → Option UInt64) (genesisDifficultyTarget : UInt32) (maxReorgDepth : UInt64)
    (fault : Option StorageError) (storage : StorageEngine) : Except RecoverError Node :=
  match storage.getCanonicalTip with
  | none => (initGenesis H genesisDifficultyTarget maxReorgDepth fault storage).mapError .node
  | some (tipHash, tipHeight) =>
    match storedPath storage (storage.blocks.size + 1) tipHash with
    | .error e => .error e
    | .ok pathRev =>
      match pathRev.reverse with
      | [] => .error .missingBlock
      | first :: rest =>
        if UInt64.ofNat pathRev.length ≠ tipHeight + 1 then .error .pathLength
        else match first.transactions with
          | [] => .error .panicked
          | coinbase :: _ =>
            match UtxoSet.applyCoinbase H UtxoSet.new coinbase 0 with
            | (_, .error e) => .error (.genesisUtxo e)
            | (utxo, .ok ()) =>
              match replayStored H eng clock 0 ⟨(ChainTree.new H first).withMaxReorgDepth maxReorgDepth, utxo⟩ rest with
              | .error e => .error (.consensus e)
              | .ok chain => .ok ⟨chain, storage, Mempool.new⟩

end

/-! ## Runs -/

/-- An operation with its clock and a fault of the database, if one occurs. -/
inductive NodeOp where
  | submitBlock (now : Option UInt64) (fault : Option StorageError) (block : Block)
  | mineBlock (now : Option UInt64) (fault : Option StorageError) (template : BlockTemplate) (nonce : UInt64)
  | submitTransaction (now : Option UInt64) (tx : Transaction)
  | applySnapshot (fault : Option StorageError) (blockHashHex : Bytes) (entries : List UtxoWireEntryDto)

def Node.step (H : Hasher) (eng : Engines) (node : Node) : NodeOp → Node
  | .submitBlock now fault block => (submitExternalBlock H eng now fault node block).1
  | .mineBlock now fault template nonce => (Scytale.mineBlock H eng now fault node template nonce).1
  | .submitTransaction now tx => (Scytale.submitTransaction H eng now node tx).1
  | .applySnapshot fault blockHashHex entries => (Scytale.applySnapshot H fault node blockHashHex entries).1

/-- The nodes of all runs from `init` in which each operation is allowed. -/
inductive NodeReach (H : Hasher) (eng : Engines) (allowed : Node → NodeOp → Prop) (init : Node) : Node → Prop where
  | start : NodeReach H eng allowed init init
  | step {node : Node} (h : NodeReach H eng allowed init node) (op : NodeOp) (hop : allowed node op) :
      NodeReach H eng allowed init (node.step H eng op)

/-- The nodes of all runs from fresh databases, with restarts. -/
inductive NodeRun (H : Hasher) (eng : Engines) : Node → Prop where
  | fresh {bits : UInt32} {depth : UInt64} {fault : Option StorageError} {node : Node}
      (h : recoverFresh H bits depth fault = .ok node) : NodeRun H eng node
  | step {node : Node} (h : NodeRun H eng node) (op : NodeOp) : NodeRun H eng (node.step H eng op)
  | restart {node node' : Node} (h : NodeRun H eng node) {clock : Nat → Option UInt64} {bits : UInt32} {depth : UInt64}
      {fault : Option StorageError} (hr : recover H eng clock bits depth fault node.storage = .ok node') :
      NodeRun H eng node'

variable {H : Hasher} {eng : Engines}

/-! ## What a submission can do -/

/-- The answer to a block that counts as invalid, or whose parent does. -/
def NodeError.flagged (hash : Hash256) : NodeError :=
  .consensus (.invalidBranchBlock hash "Block or ancestor is marked as invalid")

/-- The block or its parent counts as invalid. -/
def Flagged (H : Hasher) (node : Node) (b : Block) : Prop :=
  node.chain.tree.isBlockInvalid (b.header.hash H) = true ∨
    node.chain.tree.isBlockInvalid b.header.previousBlockHash = true

inductive Submitted (H : Hasher) (eng : Engines) (now : Option UInt64) (fault : Option StorageError) (node : Node)
    (b : Block) : Node × Except NodeError Bool → Prop where
  | flagged (h : Flagged H node b) : Submitted H eng now fault node b (node, .error (.flagged (b.header.hash H)))
  | panicked (e : NodeError) (h : ¬ Flagged H node b) (hpre : preValidate H eng node.chain b = .error e)
      (hp : e.isPanic = true) : Submitted H eng now fault node b (node, .error e)
  /-- The staged validation failed, and the block is recorded as invalid. -/
  | rejected (e : NodeError) (h : ¬ Flagged H node b) (hpre : preValidate H eng node.chain b = .error e)
      (hp : e.isPanic = false) : Submitted H eng now fault node b
        ({ node with chain := { node.chain with tree := node.chain.tree.markBlockInvalid (b.header.hash H) } }, .error e)
  /-- The tree refused the block. -/
  | refused (chain : ChainState) (e : ChainError) (h : ¬ Flagged H node b) (hpre : preValidate H eng node.chain b = .ok ())
      (hproc : processBlockWithVerifier H (nodeBlockVerifier H eng) now node.chain b = (chain, .error e)) :
      Submitted H eng now fault node b ({ node with chain := chain }, .error (.consensus e))
  /-- The tip stays. -/
  | aside (chain : ChainState) (h : ¬ Flagged H node b) (hpre : preValidate H eng node.chain b = .ok ())
      (hproc : processBlockWithVerifier H (nodeBlockVerifier H eng) now node.chain b = (chain, .ok none)) :
      Submitted H eng now fault node b ({ node with chain := chain }, .ok false)
  /-- The tip moved, but storage did not take it. -/
  | unstored (chain : ChainState) (reorg : ReorgResult) (e : StorageError) (h : ¬ Flagged H node b)
      (hpre : preValidate H eng node.chain b = .ok ())
      (hproc : processBlockWithVerifier H (nodeBlockVerifier H eng) now node.chain b = (chain, .ok (some reorg)))
      (hw : writeTx fault (storeReorg H node.storage chain.tree chain.tree.canonicalHeight b reorg) = .error e) :
      Submitted H eng now fault node b (node, .error (.storage e))
  /-- The tip moved. -/
  | moved (chain : ChainState) (reorg : ReorgResult) (db : StorageEngine) (h : ¬ Flagged H node b)
      (hpre : preValidate H eng node.chain b = .ok ())
      (hproc : processBlockWithVerifier H (nodeBlockVerifier H eng) now node.chain b = (chain, .ok (some reorg)))
      (hw : storeReorg H node.storage chain.tree chain.tree.canonicalHeight b reorg = .ok db) :
      Submitted H eng now fault node b
        (⟨chain, db, mempoolAfter H eng node.mempool chain chain.tree.canonicalHeight now b reorg⟩, .ok true)

theorem submit_outcome (H : Hasher) (eng : Engines) (now : Option UInt64) (fault : Option StorageError) (node : Node)
    (b : Block) : Submitted H eng now fault node b (submitExternalBlock H eng now fault node b) := by
  simp only [submitExternalBlock]
  split
  · rename_i h
    exact .flagged (by simpa [Flagged] using h)
  · rename_i h
    have hun : ¬ Flagged H node b := by simpa [Flagged] using h
    split
    · rename_i e hpre
      split
      · rename_i hp
        exact .panicked e hun hpre hp
      · rename_i hp
        exact .rejected e hun hpre (Bool.eq_false_of_not_eq_true hp)
    · rename_i hpre
      split
      · rename_i chain e hproc
        exact .refused chain e hun hpre hproc
      · rename_i chain hproc
        exact .aside chain hun hpre hproc
      · rename_i chain reorg hproc
        split
        · rename_i e hw
          exact .unstored chain reorg e hun hpre hproc hw
        · rename_i db hw
          exact .moved chain reorg db hun hpre hproc (writeTx_ok hw)

/-! ## The tree of a node -/

/-- The genesis block as `recover` applies it. -/
theorem recoverFresh_ok {bits : UInt32} {depth : UInt64} {fault : Option StorageError} {node : Node}
    (h : recoverFresh H bits depth fault = .ok node) : ∃ utxo,
      UtxoSet.applyBlock H UtxoSet.new (buildGenesisBlock H bits).transactions 0 = .ok (utxo, 0) ∧
      node.chain = ⟨(ChainTree.new H (buildGenesisBlock H bits)).withMaxReorgDepth depth, utxo⟩ ∧
      StorageEngine.empty.commitBlock H (buildGenesisBlock H bits) node.chain.tree.canonicalHeight
        node.chain.tree.canonicalWork = .ok node.storage := by
  simp only [recoverFresh, initGenesis] at h
  split at h
  · cases h
  · rename_i db hdb
    split at h
    · cases h
    · rename_i utxo hutxo
      cases h
      refine ⟨utxo, ?_, rfl, writeTx_ok hdb⟩
      have hcb : buildGenesisCoinbase.isCoinbase = true := rfl
      simp only [UtxoSet.applyBlock, buildGenesisBlock, hcb, hutxo]
      rfl

section
variable {genesis : Block} {now : Option UInt64} {fault : Option StorageError} {node : Node} {b : Block}

theorem Submitted.stateInv {r : Node × Except NodeError Bool} (o : Submitted H eng now fault node b r)
    (h : StateInv H genesis node.chain) : StateInv H genesis r.1.chain := by
  have hproc : ∀ {chain res}, processBlockWithVerifier H (nodeBlockVerifier H eng) now node.chain b = (chain, res) →
      StateInv H genesis chain := by
    intro chain res hp
    have := (process_outcome H (nodeBlockVerifier H eng) now node.chain b).stateInv h
    rw [hp] at this
    exact this
  cases o with
  | flagged => exact h
  | panicked => exact h
  | rejected => exact h.congr rfl rfl
  | refused chain e _ _ hp => exact hproc hp
  | aside chain _ _ hp => exact hproc hp
  | unstored => exact h
  | moved chain reorg db _ _ hp => exact hproc hp

end

/-- A submission, and nothing else. -/
def NodeOp.isSubmit : NodeOp → Prop
  | .submitBlock _ _ _ => True
  | _ => False

def NodeOp.isSnapshot : NodeOp → Prop
  | .applySnapshot _ _ _ => True
  | _ => False

theorem NodeOp.isSubmit.not_snapshot {op : NodeOp} (h : op.isSubmit) : ¬op.isSnapshot := by
  cases op with
  | submitBlock => exact id
  | mineBlock | submitTransaction | applySnapshot => exact absurd h id

variable (H eng) in
theorem submitTransaction_chain (now : Option UInt64) (node : Node) (tx : Transaction) :
    (submitTransaction H eng now node tx).1.chain = node.chain := by
  simp only [submitTransaction]
  split
  · rfl
  · split
    · rfl
    · split <;> rfl

variable (H eng) in
theorem mineBlock_chain (now : Option UInt64) (fault : Option StorageError) (node : Node) (template : BlockTemplate)
    (nonce : UInt64) : (mineBlock H eng now fault node template nonce).1.chain = node.chain ∨
      (mineBlock H eng now fault node template nonce).1.chain = (processBlockWithVerifier H (nodeBlockVerifier H eng) now
        node.chain (template.assembleBlock (template.buildHeader H nonce))).1 := by
  simp only [mineBlock]
  split
  · exact .inl rfl
  · split
    · rename_i h
      exact .inr (congrArg Prod.fst h).symm
    · rename_i h
      exact .inr (congrArg Prod.fst h).symm
    · rename_i h
      split
      · exact .inl rfl
      · exact .inr (congrArg Prod.fst h).symm

/-- The operations other than snapshots keep the set the replay of the tip's path. -/
theorem step_stateInv {genesis : Block} {node : Node} (h : StateInv H genesis node.chain) {op : NodeOp}
    (hop : ¬op.isSnapshot) : StateInv H genesis (node.step H eng op).chain := by
  cases op with
  | submitBlock now fault b => exact (submit_outcome H eng now fault node b).stateInv h
  | mineBlock now fault template nonce =>
    rcases mineBlock_chain H eng now fault node template nonce with e | e
    · rw [Node.step, e]
      exact h
    · rw [Node.step, e]
      exact (process_outcome H _ now node.chain _).stateInv h
  | submitTransaction now tx =>
    rw [Node.step, submitTransaction_chain]
    exact h
  | applySnapshot => exact absurd trivial hop

theorem fresh_stateInv {bits : UInt32} {depth : UInt64} {fault : Option StorageError} {init : Node}
    (hinit : recoverFresh H bits depth fault = .ok init) : StateInv H (buildGenesisBlock H bits) init.chain := by
  obtain ⟨utxo, hap, hchain, -⟩ := recoverFresh_ok hinit
  rw [hchain]
  exact (stateInv_new hap).congr rfl rfl

theorem runs_stateInv {allowed : Node → NodeOp → Prop} (hsnap : ∀ node op, allowed node op → ¬op.isSnapshot)
    {bits : UInt32} {depth : UInt64} {fault : Option StorageError} {init node : Node}
    (hinit : recoverFresh H bits depth fault = .ok init) (hr : NodeReach H eng allowed init node) :
    StateInv H (buildGenesisBlock H bits) node.chain := by
  induction hr with
  | start => exact fresh_stateInv hinit
  | step _ op hop ih => exact step_stateInv ih (hsnap _ op hop)

theorem applySnapshot_tree (fault : Option StorageError) (node : Node) (hex : Bytes) (entries : List UtxoWireEntryDto) :
    (applySnapshot H fault node hex entries).1.chain.tree = node.chain.tree := by
  unfold applySnapshot
  split
  · rfl
  · split
    · rfl
    · simp only
      split
      · rfl
      · split
        · rfl
        · split <;> rfl

/-- The block an operation hands to the tree. -/
def NodeOp.block (H : Hasher) : NodeOp → Option Block
  | .submitBlock _ _ b => some b
  | .mineBlock _ _ template nonce => some (template.assembleBlock (template.buildHeader H nonce))
  | _ => none

/-- The time an operation reads. -/
def NodeOp.clock : NodeOp → Option UInt64
  | .submitBlock now _ _ => now
  | .mineBlock now _ _ _ => now
  | .submitTransaction now _ => now
  | .applySnapshot _ _ _ => none

variable (H eng) in
/-- Every operation leaves the tree as it is, marks a block, or processes its own. -/
theorem step_tree (node : Node) (op : NodeOp) : (node.step H eng op).chain.tree = node.chain.tree ∨
    (∃ k, (node.step H eng op).chain.tree = node.chain.tree.markBlockInvalid k) ∨
    ∃ b, op.block H = some b ∧ (node.step H eng op).chain.tree =
      (processBlockWithVerifier H (nodeBlockVerifier H eng) op.clock node.chain b).1.tree := by
  cases op with
  | submitBlock now fault b =>
    have o := submit_outcome H eng now fault node b
    rw [Node.step]
    generalize submitExternalBlock H eng now fault node b = r at o
    cases o with
    | flagged => exact .inl rfl
    | panicked => exact .inl rfl
    | rejected => exact .inr (.inl ⟨_, rfl⟩)
    | refused chain e _ _ hp => exact .inr (.inr ⟨b, rfl, by rw [NodeOp.clock, hp]⟩)
    | aside chain _ _ hp => exact .inr (.inr ⟨b, rfl, by rw [NodeOp.clock, hp]⟩)
    | unstored => exact .inl rfl
    | moved chain reorg db _ _ hp => exact .inr (.inr ⟨b, rfl, by rw [NodeOp.clock, hp]⟩)
  | mineBlock now fault template nonce =>
    rcases mineBlock_chain H eng now fault node template nonce with h | h
    · exact .inl (congrArg ChainState.tree h)
    · exact .inr (.inr ⟨_, rfl, congrArg ChainState.tree h⟩)
  | submitTransaction now tx => exact .inl (congrArg ChainState.tree (submitTransaction_chain H eng now node tx))
  | applySnapshot fault hex entries => exact .inl (applySnapshot_tree fault node hex entries)

theorem step_treeInv {genesis : Block} {node : Node} (h : TreeInv H genesis node.chain.tree) (op : NodeOp) :
    TreeInv H genesis (node.step H eng op).chain.tree := by
  rcases step_tree H eng node op with e | ⟨k, e⟩ | ⟨b, -, e⟩
  · rw [e]
    exact h
  · rw [e]
    exact h.congr rfl rfl
  · rw [e]
    exact (process_outcome H _ op.clock node.chain b).treeInv h

/-- What every call of the replay keeps. -/
theorem replayStored_keeps {P : ChainState → Prop} (hstep : ∀ now st b, P st →
    P (processBlockWithVerifier H (nodeBlockVerifier H eng) now st b).1) {clock : Nat → Option UInt64} {bs : List Block} :
    ∀ {i : Nat} {st st' : ChainState}, P st → replayStored H eng clock i st bs = .ok st' → P st' := by
  induction bs with
  | nil => intro i st st' h hr; cases hr; exact h
  | cons b bs ih =>
    intro i st st' h hr
    unfold replayStored at hr
    split at hr
    · cases hr
    · rename_i st₁ r hp
      have h₁ := hstep (clock i) st b h
      rw [hp] at h₁
      exact ih h₁ hr

theorem replayStored_treeInv {genesis : Block} {clock : Nat → Option UInt64} {bs : List Block} {i : Nat}
    {st st' : ChainState} (h : TreeInv H genesis st.tree) (hr : replayStored H eng clock i st bs = .ok st') :
    TreeInv H genesis st'.tree :=
  replayStored_keeps (fun now st b h => (process_outcome H (nodeBlockVerifier H eng) now st b).treeInv h) h hr

theorem initGenesis_treeInv {bits : UInt32} {depth : UInt64} {fault : Option StorageError} {db : StorageEngine}
    {node : Node} (h : initGenesis H bits depth fault db = .ok node) :
    TreeInv H (buildGenesisBlock H bits) node.chain.tree := by
  simp only [initGenesis] at h
  split at h
  · cases h
  · split at h
    · cases h
    · cases h
      exact (treeInv_new H _).congr rfl rfl

theorem recover_treeInv {clock : Nat → Option UInt64} {bits : UInt32} {depth : UInt64} {fault : Option StorageError}
    {db : StorageEngine} {node : Node} (h : recover H eng clock bits depth fault db = .ok node) :
    ∃ genesis, TreeInv H genesis node.chain.tree := by
  unfold recover at h
  split at h
  · cases hi : initGenesis H bits depth fault db with
    | error e =>
      rw [hi] at h
      cases h
    | ok n =>
      rw [hi] at h
      cases h
      exact ⟨_, initGenesis_treeInv hi⟩
  · split at h
    · cases h
    · split at h
      · cases h
      · rename_i first rest hpath
        split at h
        · cases h
        · split at h
          · cases h
          · split at h
            · cases h
            · split at h
              · cases h
              · rename_i chain hchain
                cases h
                exact ⟨first, replayStored_treeInv ((treeInv_new H first).congr rfl rfl) hchain⟩

/-- The tree of every node of every run grew from its first block by checked blocks. -/
theorem nodeRun_treeInv {node : Node} (h : NodeRun H eng node) : ∃ genesis, TreeInv H genesis node.chain.tree := by
  induction h with
  | fresh h => exact ⟨_, initGenesis_treeInv h⟩
  | step _ op ih =>
    obtain ⟨genesis, hi⟩ := ih
    exact ⟨genesis, step_treeInv hi op⟩
  | restart _ hr => exact recover_treeInv hr

end Scytale
