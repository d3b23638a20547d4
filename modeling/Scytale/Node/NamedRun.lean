/-
  Scytale.Node.NamedRun — runs in which an identifier stands for one transaction
  (apps/scytale-node/src/node.rs).

  - `NamedRun`: the nodes of all runs, with restarts, whose blocks, transactions and snapshots
    agree with one naming of the outputs.
  - `namedRun_inv`: in all of them the tree, the set, the pool and the stored blocks agree
    with it.
-/
import Scytale.Node.Run
import Scytale.Mempool.Fees
import Scytale.Storage.Delta

namespace Scytale

open Lib StorageEngine

/-- What an operation brings in is named. -/
def NodeOp.Named (H : Hasher) (naming : Naming) : NodeOp → Prop
  | .submitBlock _ _ b => ∀ t ∈ b.transactions, Scytale.Named H naming t
  | .mineBlock _ _ template _ => ∀ t ∈ template.transactions, Scytale.Named H naming t
  | .submitTransaction _ tx => Scytale.Named H naming tx
  | .applySnapshot _ _ entries => ∀ parsed, parseEntries entries = .ok parsed → ∀ p ∈ parsed, naming p.1 = some p.2.output

inductive NamedRun (H : Hasher) (eng : Engines) (naming : Naming) : Node → Prop where
  | fresh {bits : UInt32} {depth : UInt64} {fault : Option StorageError} {node : Node}
      (h : recoverFresh H bits depth fault = .ok node) : NamedRun H eng naming node
  | step {node : Node} (h : NamedRun H eng naming node) (op : NodeOp) (hop : op.Named H naming) :
      NamedRun H eng naming (node.step H eng op)
  | restart {node node' : Node} (h : NamedRun H eng naming node) {clock : Nat → Option UInt64} {bits : UInt32}
      {depth : UInt64} {fault : Option StorageError}
      (hr : recover H eng clock bits depth fault node.storage = .ok node') : NamedRun H eng naming node'

/-- All stored blocks are named. -/
def BlocksNamed (H : Hasher) (naming : Naming) (db : StorageEngine) : Prop :=
  ∀ (k : Hash256) (b : Block), db.blocks[k]? = some b → ∀ t ∈ b.transactions, Named H naming t

structure NamedInv (H : Hasher) (naming : Naming) (node : Node) : Prop where
  rooted : ∃ genesis, TreeInv H genesis node.chain.tree
  tree : TreeNamed H naming node.chain.tree
  utxo : Sourced naming node.chain.utxo
  pool : PoolNamed H naming node.mempool
  blocks : BlocksNamed H naming node.storage

variable {H : Hasher} {eng : Engines} {naming : Naming}

/-! ## The stored blocks -/

theorem blocksNamed_empty : BlocksNamed H naming StorageEngine.empty := by
  intro k b h
  have hnone : (StorageEngine.empty.blocks)[k]? = none := Table.get_empty k
  rw [hnone] at h
  cases h

namespace BlocksNamed

variable {db db' : StorageEngine}

theorem connectBlock (h : BlocksNamed H naming db) {block : Block} {height : UInt64} {work : CumulativeWork}
    (hb : ∀ t ∈ block.transactions, Named H naming t) (hc : db.connectBlock H block height work = .ok db') :
    BlocksNamed H naming db' := by
  obtain ⟨d, index, -, -, rfl⟩ := connectBlock_ok hc
  intro k b hk
  have hk : (db.blocks.insert (block.header.hash H) block)[k]? = some b := hk
  rw [Table.get_insert] at hk
  split at hk
  · cases hk
    exact hb
  · exact h k b hk

theorem disconnectBlock (h : BlocksNamed H naming db) {block : Block} (hd : db.disconnectBlock H block = .ok db') :
    BlocksNamed H naming db' := by
  obtain ⟨-, -, -, hblocks, -⟩ := StorageEngine.disconnectBlock_ok hd
  intro k b hk
  rw [hblocks, Table.get_erase] at hk
  split at hk
  · cases hk
  · exact h k b hk

theorem disconnectBlocks {blocks : List Block} : ∀ {db : StorageEngine}, BlocksNamed H naming db →
    db.disconnectBlocks H blocks = .ok db' → BlocksNamed H naming db' := by
  induction blocks with
  | nil => intro db h hd; cases hd; exact h
  | cons b blocks ih =>
    intro db h hd
    unfold StorageEngine.disconnectBlocks at hd
    split at hd
    · cases hd
    · rename_i db₁ h₁
      exact ih (h.disconnectBlock h₁) hd

theorem connectBlocks {blocks : List (Block × UInt64 × CumulativeWork)} : ∀ {db : StorageEngine},
    BlocksNamed H naming db → (∀ p ∈ blocks, ∀ t ∈ p.1.transactions, Named H naming t) →
    db.connectBlocks H blocks = .ok db' → BlocksNamed H naming db' := by
  induction blocks with
  | nil => intro db h _ hc; cases hc; exact h
  | cons p blocks ih =>
    obtain ⟨b, height, work⟩ := p
    intro db h hb hc
    unfold StorageEngine.connectBlocks at hc
    split at hc
    · cases hc
    · rename_i db₁ h₁
      exact ih (h.connectBlock (hb _ List.mem_cons_self) h₁) (fun p hp => hb p (List.mem_cons_of_mem _ hp)) hc

theorem commitBlock (h : BlocksNamed H naming db) {block : Block} {height : UInt64} {work : CumulativeWork}
    (hb : ∀ t ∈ block.transactions, Named H naming t) (hc : db.commitBlock H block height work = .ok db') :
    BlocksNamed H naming db' := by
  unfold StorageEngine.commitBlock at hc
  split at hc
  · cases hc
  · rename_i db₁ h₁
    cases hc
    have hnamed := h.connectBlock hb h₁
    exact fun k b hk => hnamed k b hk

theorem storeReorg (h : BlocksNamed H naming db) {tree : ChainTree} {height : UInt64} {block : Block} {reorg : ReorgResult}
    (hb : ∀ t ∈ block.transactions, Named H naming t)
    (hconn : ∀ b ∈ reorg.connectedBlocks, ∀ t ∈ b.transactions, Named H naming t)
    (hs : Scytale.storeReorg H db tree height block reorg = .ok db') : BlocksNamed H naming db' := by
  unfold Scytale.storeReorg at hs
  split at hs
  · exact h.commitBlock hb hs
  · unfold applyReorganization at hs
    split at hs
    · cases hs
    · rename_i db₁ h₁
      split at hs
      · cases hs
      · rename_i db₂ h₂
        have hnamed := (h.disconnectBlocks h₁).connectBlocks (fun p hp => by
          obtain ⟨b, hbm, rfl⟩ := List.mem_map.mp hp
          have hfst : (connectedMeta H tree height b).1 = b := by
            unfold connectedMeta
            split <;> rfl
          rw [hfst]
          exact hconn b hbm) h₂
        split at hs
        · cases hs
          exact hnamed
        · cases hs
          exact hnamed

end BlocksNamed

/-! ## One step -/

section
variable {node : Node} {now : Option UInt64} {b : Block}

/-- What a call on the tree leaves, and what it tells storage and pool. -/
theorem NamedInv.processed (h : NamedInv H naming node) (hb : ∀ t ∈ b.transactions, Named H naming t) {v : Verifier}
    {chain : ChainState} {res : Except ChainError (Option ReorgResult)}
    (hp : processBlockWithVerifier H v now node.chain b = (chain, res)) : NamedInv H naming { node with chain := chain } := by
  obtain ⟨genesis, htree⟩ := h.rooted
  have o := process_outcome H v now node.chain b
  rw [hp] at o
  exact ⟨⟨genesis, o.treeInv htree⟩, o.treeNamed h.tree hb, o.sourced htree h.tree h.utxo hb, h.pool, h.blocks⟩

theorem reorg_named (h : NamedInv H naming node) (hb : ∀ t ∈ b.transactions, Named H naming t) {v : Verifier}
    {chain : ChainState} {reorg : ReorgResult}
    (hp : processBlockWithVerifier H v now node.chain b = (chain, .ok (some reorg))) :
    (∀ c ∈ reorg.connectedBlocks, ∀ t ∈ c.transactions, Named H naming t) ∧
      ∀ t ∈ reorg.transactionsForMempool, Named H naming t := by
  obtain ⟨genesis, htree⟩ := h.rooted
  have o := process_outcome H v now node.chain b
  rw [hp] at o
  cases o with
  | switched parent n tip pu adm ancestor staged utxo r hnode htip hlt conn hdisc hconn hpool =>
    have hpar := (adm.isChild hnode).parent_stored
    obtain ⟨c, hfound, hca, hcb, -⟩ := ChainTree.findCommonAncestor_spec htree.rooted htip hpar
    rw [conn.found] at hfound
    cases hfound
    -- both branches are parts of paths of stored blocks
    have hbranch : ∀ {k : Hash256} {m : BlockNode}, node.chain.tree.getNode k = some m →
        ancestor ∈ (node.chain.tree.walkBack k).map (·.1) → ∀ x ∈ node.chain.tree.walkUpto k ancestor,
          ∀ t ∈ x.block.transactions, Named H naming t := by
      intro k m hk hanc x hx t ht
      refine h.tree.path htree hk t (List.mem_flatMap.mpr ⟨x, ?_, ht⟩)
      rw [ChainTree.path_upto htree.rooted hk hanc]
      exact List.mem_append_right _ (List.mem_reverse.mpr hx)
    constructor
    · intro c hc
      rw [hconn] at hc
      obtain ⟨m, hm, rfl⟩ := List.mem_map.mp hc
      rcases List.mem_append.mp hm with hm | hm
      · exact hbranch hpar hcb m (List.mem_reverse.mp hm)
      · rw [List.mem_singleton.mp hm, (newNode_eq hnode).2.2.2.1]
        exact hb
    · intro t ht
      rw [hpool, hdisc, transactionsForMempool] at ht
      obtain ⟨c, hc, ht⟩ := List.mem_flatMap.mp ht
      obtain ⟨m, hm, rfl⟩ := List.mem_map.mp hc
      exact hbranch htip hca m hm t (List.mem_of_mem_tail (List.mem_filter.mp ht).1)

theorem mempoolAfter_named {mempool : Mempool} {chain : ChainState} {height : UInt64} {reorg : ReorgResult}
    (hm : PoolNamed H naming mempool) (hu : Sourced naming chain.utxo)
    (ht : ∀ t ∈ reorg.transactionsForMempool, Named H naming t) :
    PoolNamed H naming (mempoolAfter H eng mempool chain height now b reorg) := by
  unfold mempoolAfter
  refine PoolNamed.within ?_ (Mempool.onBlockConnected_within _ _ _)
  split
  · exact hm
  · exact Mempool.onReorg_named hu hm ht

/-- A move of the tip that was stored. -/
theorem NamedInv.moved (h : NamedInv H naming node) (hb : ∀ t ∈ b.transactions, Named H naming t) {v : Verifier}
    {chain : ChainState} {reorg : ReorgResult} {db : StorageEngine} {height : UInt64}
    (hp : processBlockWithVerifier H v now node.chain b = (chain, .ok (some reorg)))
    (hw : storeReorg H node.storage chain.tree height b reorg = .ok db) :
    NamedInv H naming ⟨chain, db, mempoolAfter H eng node.mempool chain height now b reorg⟩ := by
  have hchain := h.processed hb hp
  obtain ⟨hconn, hpool⟩ := reorg_named h hb hp
  exact ⟨hchain.rooted, hchain.tree, hchain.utxo, mempoolAfter_named h.pool hchain.utxo hpool,
    h.blocks.storeReorg hb hconn hw⟩

theorem NamedInv.snapshot (h : NamedInv H naming node) {fault : Option StorageError} {hex : Bytes}
    {entries : List UtxoWireEntryDto}
    (he : ∀ parsed, parseEntries entries = .ok parsed → ∀ p ∈ parsed, naming p.1 = some p.2.output) :
    NamedInv H naming (applySnapshot H fault node hex entries).1 := by
  unfold applySnapshot
  split
  · exact h
  · split
    · exact h
    · rename_i parsed hparsed
      simp only
      split
      · exact h
      · split
        · exact h
        · rename_i db hdb
          have hblocks : BlocksNamed H naming db := by
            have hdb := writeTx_ok hdb
            unfold applyUtxoSnapshot at hdb
            simp only at hdb
            split at hdb
            · cases hdb
            · split at hdb
              · cases hdb
              · cases hdb
                exact h.blocks
          have hset : Sourced naming (UtxoSet.insertAll UtxoSet.new (sortEntries parsed)).1 :=
            sourced_new.insertEntries fun p hp => he parsed hparsed p ((List.perm_insertionSort _ _).mem_iff.mp hp)
          split
          · rename_i utxo e hins
            rw [hins] at hset
            exact ⟨h.rooted, h.tree, hset, h.pool, hblocks⟩
          · rename_i utxo hins
            rw [hins] at hset
            exact ⟨h.rooted, h.tree, hset, poolNamed_new, hblocks⟩

end

theorem NamedInv.step {node : Node} (h : NamedInv H naming node) {op : NodeOp} (hop : op.Named H naming) :
    NamedInv H naming (node.step H eng op) := by
  cases op with
  | submitBlock now fault b =>
    have o := submit_outcome H eng now fault node b
    rw [Node.step]
    generalize submitExternalBlock H eng now fault node b = r at o
    cases o with
    | flagged => exact h
    | panicked => exact h
    | rejected =>
      obtain ⟨genesis, htree⟩ := h.rooted
      exact ⟨⟨genesis, htree.congr rfl rfl⟩, h.tree, h.utxo, h.pool, h.blocks⟩
    | refused chain e _ _ hp => exact h.processed hop hp
    | aside chain _ _ hp => exact h.processed hop hp
    | unstored => exact h
    | moved chain reorg db _ _ hp hw => exact h.moved hop hp hw
  | mineBlock now fault template nonce =>
    have hop : ∀ t ∈ (template.assembleBlock (template.buildHeader H nonce)).transactions, Named H naming t := hop
    rw [Node.step]
    simp only [mineBlock]
    split
    · exact h
    · split
      · rename_i hp
        exact h.processed hop hp
      · rename_i hp
        exact h.processed hop hp
      · rename_i hp
        split
        · exact h
        · rename_i hw
          exact h.moved hop hp (writeTx_ok hw)
  | submitTransaction now tx =>
    rw [Node.step]
    simp only [submitTransaction]
    split
    · exact h
    · split
      · exact h
      · have hadmit := Mempool.admitTransaction_named (consensusScriptVerifier eng node.chain.tree.canonicalHeight)
          (now.getD 0) h.pool h.utxo hop
        split
        · rename_i hm
          rw [hm] at hadmit
          exact ⟨h.rooted, h.tree, h.utxo, hadmit, h.blocks⟩
        · rename_i hm
          rw [hm] at hadmit
          exact ⟨h.rooted, h.tree, h.utxo, hadmit, h.blocks⟩
  | applySnapshot fault hex entries => exact h.snapshot hop

/-! ## Runs -/

theorem initGenesis_named {bits : UInt32} {depth : UInt64} {fault : Option StorageError} {db : StorageEngine} {node : Node}
    (hg : Named H naming buildGenesisCoinbase) (hdb : BlocksNamed H naming db)
    (h : initGenesis H bits depth fault db = .ok node) : NamedInv H naming node := by
  have hrooted := initGenesis_treeInv h
  have hblock : ∀ t ∈ (buildGenesisBlock H bits).transactions, Named H naming t := fun t ht => by
    rw [List.mem_singleton.mp ht]
    exact hg
  simp only [initGenesis] at h
  split at h
  · cases h
  · rename_i db' hcommit
    split at h
    · cases h
    · rename_i utxo hcb
      cases h
      refine ⟨⟨_, hrooted⟩, ?_, ?_, poolNamed_new, hdb.commitBlock hblock (writeTx_ok hcommit)⟩
      · intro k n hk
        have hk : (ChainTree.new H (buildGenesisBlock H bits)).getNode k = some n := hk
        rw [ChainTree.getNode_new] at hk
        split at hk
        · cases hk
          exact hblock
        · cases hk
      · exact sourced_new.insertAll hg (UtxoSet.applyCoinbase_ok hcb).2

theorem storedPath_named {db : StorageEngine} (h : BlocksNamed H naming db) {f : Nat} : ∀ {cur : Hash256} {path : List Block},
    storedPath db f cur = .ok path → ∀ b ∈ path, ∀ t ∈ b.transactions, Named H naming t := by
  induction f with
  | zero => intro cur path hp; cases hp
  | succ f ih =>
    intro cur path hp
    unfold storedPath at hp
    split at hp
    · cases hp
    · cases hp
    · rename_i block hblock
      have hnamed : ∀ t ∈ block.transactions, Named H naming t := by
        unfold getBlock at hblock
        split at hblock
        · cases hblock
        · rename_i b hb
          split at hblock
          · cases hblock
            exact h _ _ hb
          · cases hblock
      split at hp
      · cases hp
        intro b hb
        rw [List.mem_singleton.mp hb]
        exact hnamed
      · split at hp
        · cases hp
        · rename_i path hpath
          cases hp
          intro b hb
          rcases List.mem_cons.mp hb with rfl | hb
          · exact hnamed
          · exact ih hpath b hb

theorem replayStored_named {db : StorageEngine} {m : Mempool} {clock : Nat → Option UInt64} {bs : List Block} :
    ∀ {i : Nat} {st st' : ChainState}, NamedInv H naming ⟨st, db, m⟩ →
      (∀ b ∈ bs, ∀ t ∈ b.transactions, Named H naming t) → replayStored H eng clock i st bs = .ok st' →
      NamedInv H naming ⟨st', db, m⟩ := by
  induction bs with
  | nil => intro i st st' h _ hr; cases hr; exact h
  | cons b bs ih =>
    intro i st st' h hb hr
    unfold replayStored at hr
    split at hr
    · cases hr
    · rename_i st₁ res hp
      exact ih (h.processed (hb b List.mem_cons_self) hp) (fun c hc => hb c (List.mem_cons_of_mem _ hc)) hr

theorem recover_named {clock : Nat → Option UInt64} {bits : UInt32} {depth : UInt64} {fault : Option StorageError}
    {db : StorageEngine} {node : Node} (hg : Named H naming buildGenesisCoinbase) (hdb : BlocksNamed H naming db)
    (h : recover H eng clock bits depth fault db = .ok node) : NamedInv H naming node := by
  unfold recover at h
  split at h
  · cases hi : initGenesis H bits depth fault db with
    | error e =>
      rw [hi] at h
      cases h
    | ok n =>
      rw [hi] at h
      cases h
      exact initGenesis_named hg hdb hi
  · split at h
    · cases h
    · rename_i pathRev hpathRev
      have hnamed := storedPath_named hdb hpathRev
      split at h
      · cases h
      · rename_i first rest hpath
        have hmem : ∀ b ∈ first :: rest, ∀ t ∈ b.transactions, Named H naming t := fun b hb =>
          hnamed b (List.mem_reverse.mp (by rw [hpath]; exact hb))
        split at h
        · cases h
        · split at h
          · cases h
          · rename_i coinbase txs htxs
            split at h
            · cases h
            · rename_i utxo hcb
              split at h
              · cases h
              · rename_i chain hchain
                cases h
                refine replayStored_named (i := 0) ?_ (fun b hb => hmem b (List.mem_cons_of_mem _ hb)) hchain
                refine ⟨⟨first, (treeInv_new H first).congr rfl rfl⟩, ?_, ?_, poolNamed_new, hdb⟩
                · intro k n hk
                  have hk : (ChainTree.new H first).getNode k = some n := hk
                  rw [ChainTree.getNode_new] at hk
                  split at hk
                  · cases hk
                    exact hmem first List.mem_cons_self
                  · cases hk
                · refine sourced_new.insertAll (hmem first List.mem_cons_self coinbase ?_) (UtxoSet.applyCoinbase_ok hcb).2
                  rw [htxs]
                  exact List.mem_cons_self

/-- Tree, set, pool and stored blocks of every node of every named run agree with the naming. -/
theorem namedRun_inv (hg : Named H naming buildGenesisCoinbase) {node : Node} (h : NamedRun H eng naming node) :
    NamedInv H naming node := by
  induction h with
  | fresh h => exact initGenesis_named hg blocksNamed_empty h
  | step _ op hop ih => exact ih.step hop
  | restart _ hr ih => exact recover_named hg ih.blocks hr

end Scytale
