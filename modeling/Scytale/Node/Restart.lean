/-
  Scytale.Node.Restart — runs with restarts keep the indexes (apps/scytale-node/src/node.rs).

  A restart walks the stored blocks from the stored tip and processes them in a new tree, at
  whatever time it is then. If it succeeds, the new tree has the path the tables were
  written for, and nothing beside it.
  - `storedPath_found`: the walk finds an end of the path.
  - `replayStored_rebuilt`: the replay that takes every block builds the path again.
  - `recover_rebuilt`: so a restart that succeeds has the old path.
  - `RepeatlessRun` / `repeatlessRun_settled`: in the runs of operations and restarts in which
    no block repeats a transaction of its chain the indexes are those of the tip's path.
-/
import Scytale.Node.Recovery
import Scytale.Node.Index

namespace Scytale

open Lib StorageEngine

variable {H : Hasher} {eng : Engines} {genesis : Block} {t : ChainTree} {db : StorageEngine}

/-! ## The walk -/

/-- On tables with the blocks of a path the walk stops at a block of it, at the first one at
    the latest. -/
theorem storedPath_found (h : TreeInv H genesis t) (hfirst : genesis.header.previousBlockHash = Hash256.zero)
    {k : Hash256} {n : BlockNode} (hk : t.getNode k = some n) : PathStored db (t.getPathFromGenesis k) →
      ∀ {f bs}, storedPath db f k = .ok bs → ∃ before after, t.getPathFromGenesis k = before ++ after ∧ after ≠ [] ∧
        bs = after.reverse.map (·.block) := by
  have hget : ∀ {k n}, t.getNode k = some n → db.blocks[n.hash]? = some n.block → ∀ {b},
      db.getBlock k = .ok (some b) → b = n.block := by
    intro k n hk hb b hg
    simp only [getBlock, ← h.hash_eq hk, hb] at hg
    split at hg
    · cases hg
      rfl
    · cases hg
  refine h.rooted.induction (P := fun k => PathStored db (t.getPathFromGenesis k) → ∀ {f bs}, storedPath db f k = .ok bs →
    ∃ before after, t.getPathFromGenesis k = before ++ after ∧ after ≠ [] ∧ bs = after.reverse.map (·.block)) ?_ ?_ hk
  · rw [ChainTree.path_root h.rooted h.root]
    intro hstored f bs hw
    cases f with
    | zero => cases hw
    | succ f =>
      unfold storedPath at hw
      split at hw
      · cases hw
      · cases hw
      · rename_i b hg
        obtain rfl := hget h.root (hstored _ (List.mem_singleton_self _)) hg
        rw [if_pos (.inl hfirst)] at hw
        cases hw
        exact ⟨[], _, rfl, by simp, rfl⟩
  · intro k n hk hr ih
    obtain ⟨-, p, hc⟩ := h.child hk hr
    rw [ChainTree.path_child h.rooted hk hr]
    intro hstored f bs hw
    cases f with
    | zero => cases hw
    | succ f =>
      unfold storedPath at hw
      split at hw
      · cases hw
      · cases hw
      · rename_i b hg
        obtain rfl := hget hk (hstored n (by simp)) hg
        split at hw
        · cases hw
          exact ⟨_, [n], rfl, by simp, rfl⟩
        · rw [← hc.parentHash] at hw
          split at hw
          · cases hw
          · rename_i rest hrest
            cases hw
            obtain ⟨before, after, hpath, -, rfl⟩ := ih (fun m hm => hstored m (List.mem_append_left _ hm)) hrest
            exact ⟨before, after ++ [n], by rw [hpath, List.append_assoc], by simp, by simp⟩

/-! ## The replay -/

theorem replayStored_snoc_ok {clock : Nat → Option UInt64} {bs : List Block} {b : Block} : ∀ {i : Nat}
    {st st' : ChainState}, replayStored H eng clock i st (bs ++ [b]) = .ok st' → ∃ now st₁ r,
      replayStored H eng clock i st bs = .ok st₁ ∧
        processBlockWithVerifier H (nodeBlockVerifier H eng) now st₁ b = (st', .ok r) := by
  induction bs with
  | nil =>
    intro i st st' h
    rw [List.nil_append, replayStored] at h
    split at h
    · cases h
    · rename_i st₁ r hp
      cases h
      exact ⟨_, st, r, rfl, hp⟩
  | cons c bs ih =>
    intro i st st' h
    rw [List.cons_append, replayStored] at h
    split at h
    · cases h
    · rename_i st₁ r hp
      obtain ⟨now, st₂, r', hrest, hlast⟩ := ih h
      exact ⟨now, st₂, r', by rw [replayStored, hp]; exact hrest, hlast⟩

/-- No block behind the first of a path has the zero hash. -/
def NoneZero (H : Hasher) (t : ChainTree) : Prop :=
  ∀ k n, t.getNode k = some n → ∀ m ∈ (t.getPathFromGenesis k).tail, m.block.header.hash H ≠ Hash256.zero

/-- A replay that takes the blocks of a path of another tree builds the path again. -/
theorem replayStored_rebuilt (h : TreeInv H genesis t) (hzero : NoneZero H t) {clock : Nat → Option UInt64}
    {start : ChainState} (hstart : Rebuilt H genesis [genesisNode H genesis] start) {k : Hash256} {n : BlockNode}
    (hk : t.getNode k = some n) : ∀ {st'}, replayStored H eng clock 0 start
      ((t.getPathFromGenesis k).tail.map (·.block)) = .ok st' → Rebuilt H genesis (t.getPathFromGenesis k) st' := by
  refine h.rooted.induction (P := fun k => ∀ {st'}, replayStored H eng clock 0 start
    ((t.getPathFromGenesis k).tail.map (·.block)) = .ok st' → Rebuilt H genesis (t.getPathFromGenesis k) st') ?_ ?_ hk
  · rw [ChainTree.path_root h.rooted h.root]
    intro st' hr
    cases hr
    exact hstart
  · intro k n hk hroot ih st' hr
    obtain ⟨-, p, hc⟩ := h.child hk hroot
    have hlast := h.path_last hc.parent_stored
    have hdistinct := h.path_distinct hk
    have hnonzero := hzero k n hk n
    rw [ChainTree.path_child h.rooted hk hroot] at hr hdistinct hnonzero ⊢
    have hne : t.getPathFromGenesis n.parentHash ≠ [] := fun e => by
      rw [e] at hlast
      cases hlast
    rw [List.tail_append_of_ne_nil hne] at hr hnonzero
    rw [List.map_append, List.map_singleton] at hr
    obtain ⟨now, st₁, r, hbefore, hproc⟩ := replayStored_snoc_ok hr
    rw [List.map_append] at hdistinct
    have hfresh : ∀ m ∈ t.getPathFromGenesis n.parentHash, m.hash ≠ n.hash := fun m hm =>
      (List.nodup_append.mp hdistinct).2.2 _ (List.mem_map.mpr ⟨m, hm, rfl⟩) _ (by simp)
    exact (ih hbefore).retake h hc hlast (hc.hash ▸ hnonzero (by simp)) hfresh hproc

/-! ## The restart -/

/-- What a restart from a stored tip that succeeds has done. -/
theorem recover_inv {clock : Nat → Option UInt64} {bits : UInt32} {depth : UInt64} {fault : Option StorageError}
    {tip : Hash256} {height : UInt64} {node : Node} (htip : db.getCanonicalTip = some (tip, height))
    (hr : recover H eng clock bits depth fault db = .ok node) : ∃ pathRev first rest coinbase txs utxo chain,
      storedPath db (db.blocks.size + 1) tip = .ok pathRev ∧ pathRev.reverse = first :: rest ∧
        UInt64.ofNat pathRev.length = height + 1 ∧ first.transactions = coinbase :: txs ∧
        UtxoSet.applyCoinbase H UtxoSet.new coinbase 0 = (utxo, .ok ()) ∧
        replayStored H eng clock 0 ⟨(ChainTree.new H first).withMaxReorgDepth depth, utxo⟩ rest = .ok chain ∧
        node = ⟨chain, db, Mempool.new⟩ := by
  simp only [recover, htip] at hr
  split at hr
  · cases hr
  · rename_i pathRev hwalk
    split at hr
    · cases hr
    · rename_i first rest hfirst
      split at hr
      · cases hr
      · rename_i hcount
        split at hr
        · cases hr
        · rename_i coinbase txs htxs
          split at hr
          · cases hr
          · rename_i utxo hap
            split at hr
            · cases hr
            · rename_i chain hreplay
              cases hr
              exact ⟨pathRev, first, rest, coinbase, txs, utxo, chain, hwalk, hfirst, Decidable.not_not.mp hcount, htxs, hap,
                hreplay, rfl⟩

/-- A restart that succeeds on tables with the blocks of the tip's path has that path, and
    leaves the tables. -/
theorem recover_rebuilt {bits : UInt32} {node node' : Node} (h : StateInv H (buildGenesisBlock H bits) node.chain)
    (hzero : NoneZero H node.chain.tree)
    (htip : node.storage.getCanonicalTip = some (node.chain.tree.canonicalTip, node.chain.tree.canonicalHeight))
    (hstored : PathStored node.storage (node.chain.tree.getPathFromGenesis node.chain.tree.canonicalTip))
    {clock : Nat → Option UInt64} {bits' : UInt32} {depth : UInt64} {fault : Option StorageError}
    (hr : recover H eng clock bits' depth fault node.storage = .ok node') :
    Rebuilt H (buildGenesisBlock H bits) (node.chain.tree.getPathFromGenesis node.chain.tree.canonicalTip) node'.chain ∧
      TipLeaf node'.chain.tree ∧ node'.storage = node.storage := by
  obtain ⟨tip, hn⟩ := h.tree.tip
  have hlength := h.tree.path_length hn
  obtain ⟨tail, htail⟩ := List.head?_eq_some_iff.mp (h.tree.isPath hn).first
  obtain ⟨pathRev, first, rest, coinbase, txs, utxo, chain, hwalk, hfirst, hcount, htxs, hap, hreplay, rfl⟩ :=
    recover_inv htip hr
  obtain ⟨before, after, hpath, hne, rfl⟩ := storedPath_found h.tree rfl hn hstored hwalk
  -- the walk is as long as the path, so it is the whole of it
  have hbefore : before = [] := by
    have hcount := congrArg UInt64.toNat hcount
    rw [List.length_map, List.length_reverse, UInt64.toNat_ofNat', UInt64.toNat_add, ChainTree.canonicalHeight, hn] at hcount
    have hpos := List.length_pos_of_ne_nil hne
    have hlt := tip.height.toNat_lt
    have hone : (1 : UInt64).toNat = 1 := rfl
    simp only [Option.map_some, Option.getD_some, hone] at hcount
    rw [hpath, List.length_append] at hlength
    refine List.eq_nil_of_length_eq_zero ?_
    omega
  subst hbefore
  rw [List.nil_append] at hpath
  rw [List.map_reverse, List.reverse_reverse, ← hpath, htail, List.map_cons, List.cons.injEq] at hfirst
  obtain ⟨rfl, rfl⟩ := hfirst
  cases htxs
  have hgenesis : UtxoSet.applyBlock H UtxoSet.new (buildGenesisBlock H bits).transactions 0 = .ok (utxo, 0) := by
    have hcb : buildGenesisCoinbase.isCoinbase = true := rfl
    simp only [UtxoSet.applyBlock, buildGenesisBlock, hcb, hap]
    rfl
  have hstart := rebuilt_start depth hgenesis
  have hkept : TreeInv H (buildGenesisBlock H bits) chain.tree ∧ TipLeaf chain.tree :=
    replayStored_keeps (P := fun st => TreeInv H (buildGenesisBlock H bits) st.tree ∧ TipLeaf st.tree)
      (fun now st b hst => ⟨(process_outcome H _ now st b).treeInv hst.1, (process_outcome H _ now st b).tipLeaf hst.1 hst.2⟩)
      ⟨hstart.state.tree, (tipLeaf_new H _).congr rfl rfl⟩ hreplay
  refine ⟨?_, hkept.2, rfl⟩
  have htaken : replayStored H eng clock 0 ⟨(ChainTree.new H (buildGenesisBlock H bits)).withMaxReorgDepth depth, utxo⟩
      ((node.chain.tree.getPathFromGenesis node.chain.tree.canonicalTip).tail.map (·.block)) = .ok chain := by
    rw [htail]
    exact hreplay
  exact replayStored_rebuilt h.tree hzero hstart hn htaken

/-! ## Runs -/

/-- The nodes of all runs from fresh databases, with restarts and without snapshots, in which
    no block repeats a transaction of its chain or has the zero hash. -/
inductive RepeatlessRun (H : Hasher) (eng : Engines) : Node → Prop where
  | fresh {bits : UInt32} {depth : UInt64} {fault : Option StorageError} {node : Node}
      (h : recoverFresh H bits depth fault = .ok node) : RepeatlessRun H eng node
  | step {node : Node} (h : RepeatlessRun H eng node) (op : NodeOp) (hop : Repeatless H node op)
      (hashed : ∀ b, op.block H = some b → b.header.hash H ≠ Hash256.zero) : RepeatlessRun H eng (node.step H eng op)
  | restart {node node' : Node} (h : RepeatlessRun H eng node) {clock : Nat → Option UInt64} {bits : UInt32}
      {depth : UInt64} {fault : Option StorageError}
      (hr : recover H eng clock bits depth fault node.storage = .ok node') : RepeatlessRun H eng node'

/-- The node's chain and tables agree on the tip's path, whose transactions are distinct. -/
structure Settled (H : Hasher) (genesis : Block) (node : Node) : Prop where
  state : StateInv H genesis node.chain
  leaf : TipLeaf node.chain.tree
  chains : ∀ k n, node.chain.tree.getNode k = some n → Identified H (chainTxs (node.chain.tree.getPathFromGenesis k))
  nonzero : NoneZero H node.chain.tree
  tip : node.storage.getCanonicalTip = some (node.chain.tree.canonicalTip, node.chain.tree.canonicalHeight)
  kept : IndexKept H node.storage (node.chain.tree.getPathFromGenesis node.chain.tree.canonicalTip)
  stored : PathStored node.storage (node.chain.tree.getPathFromGenesis node.chain.tree.canonicalTip)

theorem Settled.indexable {node : Node} (h : Settled H genesis node) :
    Indexable H (node.chain.tree.getPathFromGenesis node.chain.tree.canonicalTip) := h.state.indexable h.chains

theorem settled_fresh {bits : UInt32} {depth : UInt64} {fault : Option StorageError} {node : Node}
    (hinit : recoverFresh H bits depth fault = .ok node) : Settled H (buildGenesisBlock H bits) node := by
  have hstate := fresh_stateInv hinit
  have hchains := fresh_identified hinit
  obtain ⟨hkept, htip⟩ := fresh_follows (indexKept_follower H) hinit (indexKept_empty H) (hstate.indexable hchains)
  obtain ⟨hstored, -⟩ := fresh_follows pathStored_follower hinit (by simp [PathStored]) hstate.replays
  refine ⟨hstate, fresh_tipLeaf hinit, hchains, fun k n hk m hm => ?_, htip, hkept, hstored⟩
  rw [(fresh_path hinit hk).2] at hm
  cases hm

namespace Settled

variable {node node' : Node}

theorem step (h : Settled H genesis node) {op : NodeOp} (hop : Repeatless H node op)
    (hashed : ∀ b, op.block H = some b → b.header.hash H ≠ Hash256.zero) : Settled H genesis (node.step H eng op) := by
  have hstate : StateInv H genesis (node.step H eng op).chain := step_stateInv h.state hop.plain
  have hchains := hop.step_identified eng h.state.tree h.chains
  have hwritten := step_written eng h.state.tree hop.plain hop.height
  obtain ⟨hkept, htip⟩ := hwritten.follows (indexKept_follower H) h.state.tree h.leaf h.indexable (hstate.indexable hchains)
    (fun _ _ _ _ => trivial) h.kept h.tip
  obtain ⟨hstored, -⟩ := hwritten.follows pathStored_follower h.state.tree h.leaf h.state.replays hstate.replays
    (fun _ _ _ _ => trivial) h.stored h.tip
  refine ⟨hstate, step_tipLeaf eng h.state.tree h.leaf op, hchains, ?_, htip, hkept, hstored⟩
  refine step_every_path (P := fun path => ∀ m ∈ path.tail, m.block.header.hash H ≠ Hash256.zero) eng h.state.tree h.nonzero
    fun n hn m hm => ?_
  cases hp : node.chain.tree.getNode n.block.header.previousBlockHash with
  | none =>
    have hnil : node.chain.tree.getPathFromGenesis n.block.header.previousBlockHash = [] := by
      rw [ChainTree.getPathFromGenesis, ChainTree.walkBack, Ancestry.chain_eq_nil hp]
      rfl
    rw [hnil] at hm
    cases hm
  | some p =>
    have hlast := h.state.tree.path_last hp
    have hne : node.chain.tree.getPathFromGenesis n.block.header.previousBlockHash ≠ [] := fun e => by
      rw [e] at hlast
      cases hlast
    rw [List.tail_append_of_ne_nil hne] at hm
    rcases List.mem_append.mp hm with hm | hm
    · exact h.nonzero _ p hp m hm
    · rw [List.mem_singleton.mp hm]
      exact hashed _ hn

theorem restart {bits : UInt32} (h : Settled H (buildGenesisBlock H bits) node) {clock : Nat → Option UInt64}
    {bits' : UInt32} {depth : UInt64} {fault : Option StorageError}
    (hr : recover H eng clock bits' depth fault node.storage = .ok node') : Settled H (buildGenesisBlock H bits) node' := by
  obtain ⟨hrebuilt, hleaf, hstorage⟩ := recover_rebuilt h.state h.nonzero h.tip h.stored hr
  obtain ⟨htip, hheight, -⟩ := hrebuilt.agrees h.state
  have htree := hrebuilt.state.tree
  -- what the new tree has is on the path
  have hprefix : ∀ k n, node'.chain.tree.getNode k = some n → ∃ rest, node.chain.tree.getPathFromGenesis
      node.chain.tree.canonicalTip = node'.chain.tree.getPathFromGenesis k ++ rest := by
    intro k n hk
    obtain ⟨top, hn⟩ := htree.tip
    have hmem := hrebuilt.only k n hk
    rw [← hrebuilt.path] at hmem ⊢
    rw [ChainTree.getPathFromGenesis, List.mem_reverse] at hmem
    obtain ⟨x, hx, rfl⟩ := List.mem_map.mp hmem
    have hkey : x.1 = k := by
      rw [← htree.hash_eq (Ancestry.mem_chain htree.rooted hn x hx), htree.hash_eq hk]
    exact ⟨_, ChainTree.path_upto htree.rooted hn (List.mem_map.mpr ⟨x, hx, hkey⟩)⟩
  refine ⟨hrebuilt.state, hleaf, fun k n hk => ?_, fun k n hk m hm => ?_, ?_, ?_, ?_⟩
  · obtain ⟨rest, hrest⟩ := hprefix k n hk
    have hid := h.indexable.identified
    rw [hrest, chainTxs, List.flatMap_append] at hid
    exact hid.left
  · obtain ⟨rest, hrest⟩ := hprefix k n hk
    obtain ⟨top, hn⟩ := h.state.tree.tip
    refine h.nonzero _ top hn m ?_
    rw [hrest, List.tail_append_of_ne_nil fun e => by rw [e] at hm; cases hm]
    exact List.mem_append_left _ hm
  · rw [hstorage, htip, hheight]
    exact h.tip
  · rw [hstorage, hrebuilt.path]
    exact h.kept
  · rw [hstorage, hrebuilt.path]
    exact h.stored

end Settled

theorem repeatlessRun_settled {node : Node} (h : RepeatlessRun H eng node) :
    ∃ bits, Settled H (buildGenesisBlock H bits) node := by
  induction h with
  | fresh h => exact ⟨_, settled_fresh h⟩
  | step _ op hop hashed ih =>
    obtain ⟨bits, hi⟩ := ih
    exact ⟨bits, hi.step hop hashed⟩
  | restart _ hr ih =>
    obtain ⟨bits, hi⟩ := ih
    exact ⟨bits, hi.restart hr⟩

end Scytale
