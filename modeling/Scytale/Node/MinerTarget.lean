/-
  Scytale.Node.MinerTarget — the target a node mines at against the target it validates
  (apps/scytale-node/src/node.rs).

  Both places that build a template copy the tip's compact target; the validator retargets
  at every 1440th block.
  - `target_agreement_iff`: on every node of every run the two agree exactly when the next
    block is not at a boundary, or the retarget leaves the target as it was.
  - `miner_misses_retarget`: a node that has taken 1439 blocks a minute apart, by
    submissions, mines at a target it does not take.
-/
import Scytale.Node.Run
import Scytale.Consensus.Retarget
import Scytale.Storage.Commit
import Scytale.Mining.Collected

namespace Scytale

open Lib

/-- The target of `build_mining_template`. -/
def miningTarget (chain : ChainTree) : UInt32 :=
  ((chain.getNode chain.canonicalTip).map (·.block.header.difficultyTarget)).getD 0x1d00ffff

/-- The target of `mining_worker_loop`: the last one it used, when there is no tip. -/
def workerTarget (last : UInt32) (chain : ChainTree) : UInt32 :=
  match chain.getNode chain.canonicalTip with
  | some node => node.block.header.difficultyTarget
  | none => last

inductive TemplateError where
  | emptyTree
  | mining (e : MiningError)
  deriving DecidableEq

section
variable (H : Hasher)

def buildMiningTemplate (node : Node) (minerPayoutScript : Bytes) (now : Option UInt64) :
    Except TemplateError BlockTemplate :=
  if node.chain.tree.nodes.isEmpty then .error .emptyTree
  else (buildTemplate H node.chain.tree node.chain.utxo node.mempool (miningTarget node.chain.tree) minerPayoutScript
    (now.getD 0)).mapError .mining

/-- The template of one round of `mining_worker_loop`. -/
def workerTemplate (last : UInt32) (node : Node) (payout : Bytes) (now : Option UInt64) :
    Except MiningError BlockTemplate :=
  buildTemplate H node.chain.tree node.chain.utxo node.mempool (workerTarget last node.chain.tree) payout (now.getD 0)

end

variable {H : Hasher} {eng : Engines}

/-! ## Agreement -/

theorem buildTemplate_target {chain : ChainTree} {utxos : UtxoSet} {pool : Mempool} {bits : UInt32} {payout : Bytes}
    {now : UInt64} {template : BlockTemplate} (h : buildTemplate H chain utxos pool bits payout now = .ok template) :
    template.compactTarget = bits := by
  obtain ⟨tip, coinbaseValue, u, fees, hbuilt⟩ := buildTemplate_ok h
  exact hbuilt.target

/-- The header of every template names the tip's compact target. -/
theorem template_bits {node : Node} {n : BlockNode} (htip : node.chain.tree.getNode node.chain.tree.canonicalTip = some n)
    {payout : Bytes} {now : Option UInt64} {last : UInt32} {template : BlockTemplate}
    (h : buildMiningTemplate H node payout now = .ok template ∨ workerTemplate H last node payout now = .ok template)
    (nonce : UInt64) : (template.buildHeader H nonce).difficultyTarget = n.block.header.difficultyTarget := by
  show template.compactTarget = _
  rcases h with h | h
  · unfold buildMiningTemplate at h
    split at h
    · cases h
    · cases hb : buildTemplate H node.chain.tree node.chain.utxo node.mempool (miningTarget node.chain.tree) payout
          (now.getD 0) with
      | error e =>
        rw [hb] at h
        cases h
      | ok t =>
        rw [hb] at h
        cases h
        rw [buildTemplate_target hb, miningTarget, htip]
        rfl
  · rw [buildTemplate_target h, workerTarget, htip]

/-- The retarget at the boundary after `n` leaves its target as it is. -/
def KeepsTarget (t : ChainTree) (n : BlockNode) : Prop :=
  ∃ first, epochStart (t.getPathFromGenesis t.canonicalTip) = some first ∧
    min (retargetQuotient first n) maxRetarget = (Target.fromCompact n.block.header.difficultyTarget).val

/-- On every node of every run: the headers of all templates name the tip's target, and it
    is the one the validator requires exactly when the next block is not at a boundary, or
    the retarget keeps it. -/
theorem target_agreement_iff {node : Node} (hr : NodeRun H eng node) {n : BlockNode}
    (htip : node.chain.tree.getNode node.chain.tree.canonicalTip = some n) (last : UInt32) :
    (∀ payout now template nonce, buildMiningTemplate H node payout now = .ok template ∨
        workerTemplate H last node payout now = .ok template →
      (template.buildHeader H nonce).difficultyTarget = miningTarget node.chain.tree) ∧
    workerTarget last node.chain.tree = miningTarget node.chain.tree ∧
    (expectedTarget (node.chain.tree.getPathFromGenesis node.chain.tree.canonicalTip) n =
        .ok (Target.fromCompact (miningTarget node.chain.tree)) ↔
      (AtBoundary n → KeepsTarget node.chain.tree n)) := by
  have hmining : miningTarget node.chain.tree = n.block.header.difficultyTarget := by
    rw [miningTarget, htip]
    rfl
  have hworker : workerTarget last node.chain.tree = n.block.header.difficultyTarget := by
    rw [workerTarget, htip]
  obtain ⟨genesis, htree⟩ := nodeRun_treeInv hr
  rw [hworker, hmining]
  refine ⟨fun payout now template nonce h => template_bits htip h nonce, rfl, ?_⟩
  by_cases hb : AtBoundary n
  · obtain ⟨first, T, hfirst, hT, hval⟩ := htree.boundary_target htip hb
    rw [hT]
    constructor
    · intro he _
      obtain rfl := Except.ok.inj he
      exact ⟨first, hfirst, hval.symm⟩
    · intro hk
      obtain ⟨first', hfirst', hval'⟩ := hk hb
      rw [hfirst] at hfirst'
      cases hfirst'
      exact congrArg Except.ok (Target.val_inj (hval.trans hval'))
  · exact iff_of_true (inner_target _ hb) fun h => absurd h hb

theorem target_agreement_fresh : ∃ n, (freshNode Blake3.digest).chain.tree.getNode
      (freshNode Blake3.digest).chain.tree.canonicalTip = some n ∧ ¬AtBoundary n ∧
    expectedTarget ((freshNode Blake3.digest).chain.tree.getPathFromGenesis
      (freshNode Blake3.digest).chain.tree.canonicalTip) n =
        .ok (Target.fromCompact (miningTarget (freshNode Blake3.digest).chain.tree)) := by
  have hrun : NodeRun Blake3.digest acceptAll (freshNode Blake3.digest) := .fresh freshNode_recovered
  cases htip : (freshNode Blake3.digest).chain.tree.getNode (freshNode Blake3.digest).chain.tree.canonicalTip with
  | none =>
    obtain ⟨genesis, htree⟩ := nodeRun_treeInv hrun
    obtain ⟨n, hn⟩ := htree.tip
    rw [htip] at hn
    cases hn
  | some n =>
    have hlow : n.height = 0 := by
      have h0 : (freshNode Blake3.digest).chain.tree.canonicalHeight = 0 := by decide +kernel
      rw [ChainTree.canonicalHeight, htip] at h0
      exact h0
    have hb : ¬AtBoundary n := by
      rw [AtBoundary, hlow]
      decide
    exact ⟨n, rfl, hb, (target_agreement_iff hrun htip 0).2.2.mpr fun h => absurd h hb⟩

/-! ## A node before its first retarget

The chain of `Consensus.Retarget` that stops, taken by a node from its own genesis block. -/

/-- No row of the address index has more than `m` records. -/
def RowsBelow (m : Nat) (db : StorageEngine) : Prop :=
  ∀ (key : Bytes) (row : List AddressTxRecord), db.addressTxIndex[key]? = some row → row.length ≤ m

theorem recordsOf_length (records : List (Bytes × AddressTxRecord)) (address : Bytes) :
    (StorageEngine.recordsOf records address).length ≤ records.length := by
  rw [StorageEngine.recordsOf, List.length_map]
  exact List.length_filter_le _ _

/-- A block whose only transaction is a coinbase adds at most a record for each output. -/
theorem commit_rows {db db' : StorageEngine} {block : Block} {height : UInt64} {work : CumulativeWork} {m : Nat}
    {cb : Transaction} (hrows : RowsBelow m db) (htxs : block.transactions = [cb]) (hcb : cb.isCoinbase = true)
    (h : db.commitBlock H block height work = .ok db') : RowsBelow (m + cb.outputs.length) db' := by
  simp only [StorageEngine.commitBlock] at h
  split at h
  · cases h
  · rename_i db₁ h₁
    cases h
    obtain ⟨d, index, hd, hindex, rfl⟩ := StorageEngine.connectBlock_ok h₁
    rw [htxs] at hd
    simp only [StorageEngine.storeTransactions, StorageEngine.storeTransaction_coinbase hcb] at hd
    obtain rfl := Except.ok.inj hd
    have hlen : (StorageEngine.outputRecords H (cb.txid H) cb.outputs).length ≤ cb.outputs.length :=
      List.length_filterMap_le _ _
    intro key row hrow
    change index[key]? = some row at hrow
    by_cases hk : ∃ address, StorageEngine.makeAddressTxKey address height = key
    · obtain ⟨address, rfl⟩ := hk
      rw [StorageEngine.get_writeRecords_grouped hindex] at hrow
      have hold : (db.addressTxIndex[StorageEngine.makeAddressTxKey address height]?.getD []).length ≤ m := by
        cases hg : db.addressTxIndex[StorageEngine.makeAddressTxKey address height]? with
        | none => exact Nat.zero_le _
        | some old => exact hrows _ _ hg
      split at hrow
      · obtain rfl := Option.some.inj hrow
        have := recordsOf_length (StorageEngine.outputRecords H (cb.txid H) cb.outputs) address
        rw [List.length_append]
        simp only [StorageEngine.createOutputs, List.nil_append]
        omega
      · exact Nat.le_add_right_of_le (hrows _ _ hrow)
    · rw [StorageEngine.get_writeRecords_other hindex fun p _ e => hk ⟨p.1, e⟩] at hrow
      exact Nat.le_add_right_of_le (hrows _ _ hrow)

/-- A node that has taken the chain up to its `i`th block. -/
structure IdleNode (H : Hasher) (u : UtxoSet) (i : Nat) (node : Node) (n : BlockNode) : Prop where
  run : NodeRun H acceptAll node
  idle : Idle H (buildGenesisBlock H easyBits) u i node.chain n
  stored : node.storage.utxos = u.entries
  rows : RowsBelow (i + 2) node.storage

theorem genesis_idle (H : Hasher) : IdleFirst (buildGenesisBlock H easyBits) := ⟨rfl, rfl⟩

theorem idleNode_start (H : Hasher) : ∃ u node n, IdleNode H u 0 node n := by
  obtain ⟨u, hap, -⟩ := genesis_applies H easyBits
  have hempty : StorageEngine.empty.utxos = UtxoSet.new.entries := rfl
  obtain ⟨db, hdb, hsame⟩ := StorageEngine.commit_refines_apply (H := H)
    ((ChainTree.new H (buildGenesisBlock H easyBits)).withMaxReorgDepth 100).canonicalWork hempty rfl hap
    (fun address row h => by rw [StorageEngine.empty, Table.get_empty] at h; cases h)
  have hcb : UtxoSet.applyCoinbase H UtxoSet.new buildGenesisCoinbase 0 = (u, .ok ()) := by
    obtain ⟨cb, rest, s₁, htxs, -, hcb, hrest⟩ := UtxoSet.applyBlock_ok hap
    obtain ⟨rfl, rfl⟩ := List.cons.inj (htxs : [buildGenesisCoinbase] = cb :: rest)
    cases hrest
    exact hcb
  have hheight : ((ChainTree.new H (buildGenesisBlock H easyBits)).withMaxReorgDepth 100).canonicalHeight = 0 := by
    rw [ChainTree.canonicalHeight]
    show ((((ChainTree.new H (buildGenesisBlock H easyBits)).getNode _).map (·.height)).getD 0) = 0
    rw [ChainTree.getNode_new]
    split <;> rfl
  have hinit : recoverFresh H easyBits 100 none = .ok ⟨⟨(ChainTree.new H (buildGenesisBlock H easyBits)).withMaxReorgDepth
      100, u⟩, db, Mempool.new⟩ := by
    simp only [recoverFresh, initGenesis, writeTx, hheight, hdb, hcb]
  have hrows : RowsBelow (0 + 2) db :=
    commit_rows (fun key row h => by rw [StorageEngine.empty, Table.get_empty] at h; cases h) rfl (by decide) hdb
  exact ⟨u, _, _, .fresh hinit, idle_start H (genesis_idle H) u 100, hsame, hrows⟩

/-- One more block. -/
theorem IdleNode.step {u : UtxoSet} {i : Nat} {node : Node} {n : BlockNode} (h : IdleNode H u i node n)
    (hi : i + 1 < 1440) (hH : CollisionFree H (idleHeadersOn H (buildGenesisBlock H easyBits) u)) :
    ∃ node' n', IdleNode H u (i + 1) node' n' := by
  have hv : nodeBlockVerifier H acceptAll (idleOn H (buildGenesisBlock H easyBits) u (i + 1)) u = .ok () := rfl
  obtain ⟨st', n', r, hproc, hdisc, h'⟩ := h.idle.step (genesis_idle H) hi
    (fun j hj => idle_hash_ne (genesis_idle H) hH hi (by omega) (by omega)) hv
  have hmax : maxVectorLength = 16777216 := rfl
  have happly : UtxoSet.applyBlock H u (idleOn H (buildGenesisBlock H easyBits) u (i + 1)).transactions
      st'.tree.canonicalHeight = .ok (u, 0) := rfl
  obtain ⟨db, hdb, hsame⟩ := StorageEngine.commit_refines_apply
    st'.tree.canonicalWork h.stored rfl happly (fun address row hrow => by
      have := h.rows _ _ hrow
      rw [StorageEngine.Readable]
      omega)
  have hunflagged : (node.chain.tree.isBlockInvalid ((idleOn H (buildGenesisBlock H easyBits) u (i + 1)).header.hash H) ||
      node.chain.tree.isBlockInvalid (idleOn H (buildGenesisBlock H easyBits) u (i + 1)).header.previousBlockHash) =
        false := by
    rw [h.idle.unmarked, h.idle.unmarked]
    rfl
  have hpre : preValidate H acceptAll node.chain (idleOn H (buildGenesisBlock H easyBits) u (i + 1)) = .ok () := by
    have hprev : (idleOn H (buildGenesisBlock H easyBits) u (i + 1)).header.previousBlockHash =
        node.chain.tree.canonicalTip := h.idle.tip.symm
    have hstage : stageBlock H acceptAll (idleOn H (buildGenesisBlock H easyBits) u (i + 1))
        (node.chain.tree.canonicalHeight + 1) u = .ok u := by
      have htxs : validateBlockTransactions H acceptAll (idleOn H (buildGenesisBlock H easyBits) u (i + 1))
          (node.chain.tree.canonicalHeight + 1) (idleOn H (buildGenesisBlock H easyBits) u (i + 1)).header.timestamp u =
            .ok u := rfl
      have hroot : (idleOn H (buildGenesisBlock H easyBits) u (i + 1)).header.utxoRoot = u.computeUtxoRoot H := rfl
      simp only [stageBlock, htxs, hroot, ne_eq, not_true_eq_false, if_false]
    simp only [preValidate, hprev, if_true, h.idle.utxo, hstage]
  have hrun := h.run.step (.submitBlock (some (idleOn H (buildGenesisBlock H easyBits) u (i + 1)).header.timestamp) none
    (idleOn H (buildGenesisBlock H easyBits) u (i + 1)))
  simp only [Node.step, submitExternalBlock, hunflagged, Bool.false_eq_true, if_false, hpre, hproc, storeReorg, hdisc,
    List.isEmpty_nil, if_true, hdb, writeTx] at hrun
  have hrows := commit_rows h.rows (show (idleOn H (buildGenesisBlock H easyBits) u (i + 1)).transactions =
    [idleCoinbase] from rfl) (by decide) hdb
  exact ⟨_, n', hrun, h', hsame, hrows⟩

theorem idleNode_reached {u : UtxoSet} (hH : CollisionFree H (idleHeadersOn H (buildGenesisBlock H easyBits) u))
    {node₀ : Node} {n₀ : BlockNode} (h₀ : IdleNode H u 0 node₀ n₀) : ∀ {i : Nat}, i < 1440 →
    ∃ node n, IdleNode H u i node n := by
  intro i
  induction i with
  | zero => intro _; exact ⟨_, _, h₀⟩
  | succ i ih =>
    intro hi
    obtain ⟨node, n, h⟩ := ih (by omega)
    exact h.step hi hH

/-- After 1439 blocks a minute apart the node mines at the largest target, and requires the
    cap. -/
theorem miner_misses_retarget : ∃ node n, NodeRun stampDigest acceptAll node ∧
    node.chain.tree.getNode node.chain.tree.canonicalTip = some n ∧
    expectedTarget (node.chain.tree.getPathFromGenesis node.chain.tree.canonicalTip) n ≠
      .ok (Target.fromCompact (miningTarget node.chain.tree)) := by
  obtain ⟨u, node₀, n₀, h₀⟩ := idleNode_start stampDigest
  obtain ⟨node, n, h⟩ := idleNode_reached (stampDigest_collisionFree (genesis_idle _) u) h₀ (i := 1439) (by omega)
  have hb : AtBoundary n := ⟨1, by rw [h.idle.height]⟩
  have hbits : n.block.header.difficultyTarget = easyBits := by rw [h.idle.block, idle_bits _ u (genesis_idle _)]
  refine ⟨node, n, h.run, h.idle.stored, fun he => ?_⟩
  obtain ⟨first, T, -, hT, hval⟩ := h.idle.tree.boundary_target h.idle.stored hb
  have hmining : miningTarget node.chain.tree = easyBits := by
    rw [miningTarget, h.idle.stored]
    exact hbits
  rw [hT, hmining] at he
  have hmax : (Target.fromCompact easyBits).val = 2 ^ 256 - 1 := by decide
  have hcap : maxRetarget < 2 ^ 256 - 1 := by decide
  rw [Except.ok.inj he, hmax] at hval
  omega

end Scytale
