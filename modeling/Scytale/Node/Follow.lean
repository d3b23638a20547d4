/-
  Scytale.Node.Follow — the storage follows the tip (apps/scytale-node/src/node.rs,
  crates/scytale-storage/src/engine.rs).

  When the tip moves, the node writes either one block or a reorganisation. Both take blocks
  off the end of the path the tables were written for and put blocks on it.
  - `Follower`: a relation between tables and a path that connecting a block and
    disconnecting one keep.
  - `moved_follows`: then every move of the tip keeps it, from the old tip's path to the new
    one's; and the stored tip is the new tip.
  - `runs_follow`: and so does every run without snapshots.
-/
import Scytale.Node.Run
import Scytale.Consensus.TipLeaf

namespace Scytale

open Lib StorageEngine

variable {H : Hasher} {eng : Engines} {genesis : Block}

/-! ## Paths and tables -/

/-- The path replays, and its blocks have their own hashes. -/
structure Replays (H : Hasher) (path : List BlockNode) : Prop where
  replayed : ∃ s, replay H UtxoSet.new path = .ok s
  hashed : ∀ n ∈ path, n.block.header.hash H = n.hash
  distinct : (path.map (·.hash)).Nodup

/-- The last block of a path that replays is applied to the set before it. -/
theorem Replays.last {path : List BlockNode} {n : BlockNode} (h : Replays H (path ++ [n])) : ∃ s s' fees,
    replay H UtxoSet.new path = .ok s ∧ replay H UtxoSet.new (path ++ [n]) = .ok s' ∧
      UtxoSet.applyBlock H s n.block.transactions n.height = .ok (s', fees) := by
  obtain ⟨s', hs'⟩ := h.replayed
  obtain ⟨s, hs, hone⟩ := replay_split hs'
  obtain ⟨fees, hap⟩ := replay_one.mp hone
  exact ⟨s, s', fees, hs, hs', hap⟩

theorem Replays.before {path : List BlockNode} {n : BlockNode} (h : Replays H (path ++ [n])) : Replays H path := by
  obtain ⟨s, -, -, hs, -⟩ := h.last
  refine ⟨⟨s, hs⟩, fun m hm => h.hashed m (List.mem_append_left _ hm), ?_⟩
  have hnd := h.distinct
  rw [List.map_append] at hnd
  exact (List.nodup_append.mp hnd).1

/-- The last block's hash is none of those before it. -/
theorem Replays.hash_ne {path : List BlockNode} {m n : BlockNode} (h : Replays H (path ++ [n])) (hm : m ∈ path) :
    n.block.header.hash H ≠ m.hash := by
  have hnd := h.distinct
  rw [List.map_append] at hnd
  rw [h.hashed n (by simp)]
  exact fun e => (List.nodup_append.mp hnd).2.2 _ (List.mem_map.mpr ⟨m, hm, rfl⟩) _ (by simp) e.symm

theorem TreeInv.path_distinct {t : ChainTree} (h : TreeInv H genesis t) {k : Hash256} {n : BlockNode}
    (hk : t.getNode k = some n) : ((t.getPathFromGenesis k).map (·.hash)).Nodup := by
  have hsame : (t.walkBack k).map (fun x => x.2.hash) = (t.walkBack k).map (·.1) :=
    List.map_congr_left fun x hx => h.hash_eq (Ancestry.mem_chain h.rooted hk x hx)
  rw [ChainTree.getPathFromGenesis, List.map_reverse, List.map_map, List.nodup_reverse]
  exact hsame ▸ Ancestry.chain_nodup h.rooted hk

theorem StateInv.replays {st : ChainState} (h : StateInv H genesis st) :
    Replays H (st.tree.getPathFromGenesis st.tree.canonicalTip) := by
  obtain ⟨n, htip⟩ := h.tree.tip
  refine ⟨⟨_, h.replayed⟩, ?_, h.tree.path_distinct htip⟩
  intro m hm
  obtain ⟨k, hk⟩ := h.tree.mem_path htip hm
  rw [h.tree.block_hash hk, h.tree.hash_eq hk]

/-- A relation between the tables and a path, kept as blocks are put on the path and taken
    off it. `Path` is what is known of the paths, `Loose` of the blocks taken off. -/
structure Follower (H : Hasher) (Path : List BlockNode → Prop) (Loose : BlockNode → Prop)
    (R : StorageEngine → List BlockNode → Prop) : Prop where
  before : ∀ {path n}, Path (path ++ [n]) → Path path
  connect : ∀ {db db' path n}, Path (path ++ [n]) → R db path →
    db.connectBlock H n.block n.height n.cumulativeWork = .ok db' → R db' (path ++ [n])
  disconnect : ∀ {db db' path n}, Path (path ++ [n]) → Loose n → R db (path ++ [n]) →
    db.disconnectBlock H n.block = .ok db' → R db' path
  setTip : ∀ {db path} (hash : Hash256) (height : UInt64), R db path → R (db.setTip hash height) path

namespace Follower

variable {Path : List BlockNode → Prop} {Loose : BlockNode → Prop} {R : StorageEngine → List BlockNode → Prop}

theorem before_all (F : Follower H Path Loose R) {path new : List BlockNode} (h : Path (path ++ new)) : Path path := by
  induction new using List.reverseRecOn with
  | nil => simpa using h
  | append_singleton new n ih =>
    rw [← List.append_assoc] at h
    exact ih (F.before h)

/-- The rollback loop takes the end of the path off, last block first. -/
theorem disconnectBlocks (F : Follower H Path Loose R) {path old : List BlockNode} : ∀ {db db' : StorageEngine},
    Path (path ++ old) → (∀ m ∈ old, Loose m) → R db (path ++ old) →
    db.disconnectBlocks H (old.reverse.map (·.block)) = .ok db' → R db' path := by
  induction old using List.reverseRecOn with
  | nil =>
    intro db db' _ _ hR h
    cases h
    simpa using hR
  | append_singleton old n ih =>
    intro db db' hpath hloose hR h
    rw [← List.append_assoc] at hpath hR
    rw [List.reverse_append, List.reverse_singleton, List.singleton_append, List.map_cons] at h
    unfold StorageEngine.disconnectBlocks at h
    split at h
    · cases h
    · rename_i db₁ h₁
      have hR₁ := F.disconnect hpath (hloose n (by simp)) hR h₁
      exact ih (F.before hpath) (fun m hm => hloose m (List.mem_append_left _ hm)) hR₁ h

theorem connectBlocks (F : Follower H Path Loose R) {new : List BlockNode} : ∀ {path : List BlockNode}
    {db db' : StorageEngine}, Path (path ++ new) → R db path →
    db.connectBlocks H (new.map fun n => (n.block, n.height, n.cumulativeWork)) = .ok db' → R db' (path ++ new) := by
  induction new with
  | nil =>
    intro path db db' _ hR h
    cases h
    simpa using hR
  | cons n new ih =>
    intro path db db' hpath hR h
    rw [List.append_cons] at hpath ⊢
    rw [List.map_cons] at h
    unfold StorageEngine.connectBlocks at h
    split at h
    · cases h
    · rename_i db₁ h₁
      exact ih hpath (F.connect (F.before_all hpath) hR h₁) h

/-- A reorganisation takes the old blocks off and puts the new ones on. -/
theorem applyReorganization (F : Follower H Path Loose R) {path old new : List BlockNode} {n : BlockNode}
    {db db' : StorageEngine} (hold : Path (path ++ old)) (hnew : Path (path ++ (new ++ [n]))) (hloose : ∀ m ∈ old, Loose m)
    (hR : R db (path ++ old)) (h : db.applyReorganization H (old.reverse.map (·.block))
      ((new ++ [n]).map fun n => (n.block, n.height, n.cumulativeWork)) = .ok db') :
    R db' (path ++ (new ++ [n])) ∧ db'.getCanonicalTip = some (n.block.header.hash H, n.height) := by
  unfold StorageEngine.applyReorganization at h
  split at h
  · cases h
  · rename_i db₁ h₁
    split at h
    · cases h
    · rename_i db₂ h₂
      rw [List.map_append, List.map_singleton, List.getLast?_concat] at h
      cases h
      exact ⟨F.setTip _ _ (F.connectBlocks hnew (F.disconnectBlocks hold hloose hR h₁) h₂), rfl⟩

theorem commitBlock (F : Follower H Path Loose R) (path : List BlockNode) {n : BlockNode} {db db' : StorageEngine}
    (hpath : Path (path ++ [n])) (hR : R db path)
    (h : db.commitBlock H n.block n.height n.cumulativeWork = .ok db') :
    R db' (path ++ [n]) ∧ db'.getCanonicalTip = some (n.block.header.hash H, n.height) := by
  unfold StorageEngine.commitBlock at h
  split at h
  · cases h
  · rename_i db₁ h₁
    cases h
    exact ⟨F.setTip _ _ (F.connect hpath hR h₁), rfl⟩

end Follower

/-! ## A move of the tip -/

/-- What the connected blocks are stored with is what their nodes have. -/
theorem connectedMeta_eq {t : ChainTree} (h : TreeInv H genesis t) (height : UInt64) {k : Hash256} {n : BlockNode}
    (hk : t.getNode k = some n) : connectedMeta H t height n.block = (n.block, n.height, n.cumulativeWork) := by
  simp only [connectedMeta, h.block_hash hk, hk]

/-- The blocks that a submission takes off the tip's path if it is accepted: when the block
    is heavier than the tip, those above the common ancestor. -/
def ChainTree.leaving (H : Hasher) (t : ChainTree) (b : Block) : List BlockNode :=
  match (t.getNode b.header.previousBlockHash).bind (newNode H · b) with
  | none => []
  | some node =>
    if node.cumulativeWork.le t.canonicalWork then []
    else match t.findCommonAncestor t.canonicalTip b.header.previousBlockHash with
      | .ok ancestor => t.walkUpto t.canonicalTip ancestor
      | .error _ => []

theorem Connected.leaving {v : Verifier} {now : Option UInt64} {st : ChainState} {b : Block} {parent node tip : BlockNode}
    {pu staged utxo : UtxoSet} {ancestor : Hash256} (adm : Admitted H now st b parent pu)
    (hnode : newNode H parent b = some node) (htip : st.tree.getNode st.tree.canonicalTip = some tip)
    (hlt : tip.cumulativeWork.val < node.cumulativeWork.val) (conn : Connected H v st node ancestor staged utxo) :
    st.tree.leaving H b = st.tree.walkUpto st.tree.canonicalTip ancestor := by
  have hwork : st.tree.canonicalWork = tip.cumulativeWork := by
    rw [ChainTree.canonicalWork, htip]
    rfl
  have hheavier : node.cumulativeWork.le tip.cumulativeWork = false := by
    rw [← Bool.not_eq_true, CumulativeWork.le_iff]
    omega
  have hfound := conn.found
  rw [(newNode_eq hnode).2.1] at hfound
  simp only [ChainTree.leaving, adm.parent_stored, Option.bind_some, hnode, hwork, hheavier, hfound, Bool.false_eq_true,
    if_false]

/-- A move of the tip: the path up to the common ancestor stays, `old` leaves it, and `new` and
    the block itself enter. -/
structure TipMove (H : Hasher) (st chain : ChainState) (b : Block) (reorg : ReorgResult) (stays old new : List BlockNode)
    (node : BlockNode) : Prop where
  before : st.tree.getPathFromGenesis st.tree.canonicalTip = stays ++ old
  after : chain.tree.getPathFromGenesis chain.tree.canonicalTip = stays ++ (new ++ [node])
  block : node.block = b
  hash : chain.tree.canonicalTip = node.block.header.hash H
  height : chain.tree.canonicalHeight = node.height
  work : chain.tree.canonicalWork = node.cumulativeWork
  left : reorg.disconnectedBlocks = old.reverse.map (·.block)
  leaving : st.tree.leaving H b = old.reverse
  entered : reorg.connectedBlocks = (new ++ [node]).map (·.block)
  stored : ∀ m ∈ new ++ [node], ∃ k, chain.tree.getNode k = some m
  kept : ∀ k m, st.tree.getNode k = some m → chain.tree.getNode k = some m
  /-- Where nothing leaves, only the block enters. -/
  extension : old = [] → new = []

theorem tip_move {v : Verifier} {now : Option UInt64} {st chain : ChainState} {b : Block} {reorg : ReorgResult}
    (htree : TreeInv H genesis st.tree) (hleaf : TipLeaf st.tree)
    (hproc : processBlockWithVerifier H v now st b = (chain, .ok (some reorg))) :
    ∃ stays old new node, TipMove H st chain b reorg stays old new node := by
  have o := process_outcome H v now st b
  rw [hproc] at o
  cases o with
  | switched parent node tip pu adm ancestor staged utxo r hnode htip hlt conn hdisc hconn =>
    have hc := adm.isChild hnode
    have hself := ChainTree.getNode_insertNode_self st.tree node
    obtain ⟨c, hfound, hca, hcb, -⟩ := ChainTree.findCommonAncestor_spec htree.rooted htip hc.parent_stored
    rw [conn.found] at hfound
    cases hfound
    refine ⟨_, _, _, _, ⟨ChainTree.path_upto htree.rooted htip hca, conn.path adm hnode htree, (newNode_eq hnode).2.2.2.1,
      hc.hash, ?_, ?_, ?_, ?_, hconn, ?_, adm.grows hnode, ?_⟩⟩
    · show (((st.tree.insertNode node).getNode node.hash).map (·.height)).getD 0 = _
      rw [hself]
      rfl
    · show (((st.tree.insertNode node).getNode node.hash).map (·.cumulativeWork)).getD _ = _
      rw [hself]
      rfl
    · rw [hdisc, List.reverse_reverse]
    · rw [conn.leaving adm hnode htip hlt, List.reverse_reverse]
    · intro m hm
      rcases List.mem_append.mp hm with hm | hm
      · rw [List.mem_reverse, ChainTree.walkUpto] at hm
        obtain ⟨x, hx, rfl⟩ := List.mem_map.mp hm
        have hx' : x ∈ st.tree.walkBack node.parentHash := by
          rw [ChainTree.walkBack, Ancestry.chain_upto htree.rooted hc.parent_stored hcb]
          exact List.mem_append_left _ hx
        exact ⟨x.1, adm.grows hnode _ _ (Ancestry.mem_chain htree.rooted hc.parent_stored x hx')⟩
      · rw [List.mem_singleton.mp hm]
        exact ⟨_, hself⟩
    · intro hold
      rw [List.reverse_eq_nil_iff] at hold
      have hext := hleaf.extension_of_nothing_disconnected htree adm hnode htip hlt conn.found hold
      obtain rfl : st.tree.canonicalTip = ancestor := Ancestry.upto_eq_nil htip (List.map_eq_nil_iff.mp hold)
      rw [hext, hold, List.reverse_nil]

/-- The blocks that enter are stored with what their nodes have. -/
theorem TipMove.entered_meta {st chain : ChainState} {b : Block} {reorg : ReorgResult} {stays old new : List BlockNode}
    {node : BlockNode} (h : TipMove H st chain b reorg stays old new node) (hinv : TreeInv H genesis chain.tree)
    (height : UInt64) : reorg.connectedBlocks.map (connectedMeta H chain.tree height) =
      (new ++ [node]).map fun n => (n.block, n.height, n.cumulativeWork) := by
  rw [h.entered, List.map_map]
  refine List.map_congr_left fun m hm => ?_
  obtain ⟨k, hk⟩ := h.stored m hm
  exact connectedMeta_eq hinv _ hk

/-- A write after a move of the tip, as in `submit_external_block` and in the mining loop:
    the tables follow from the old tip's path to the new one's. -/
theorem moved_follows {Path : List BlockNode → Prop} {Loose : BlockNode → Prop} {R : StorageEngine → List BlockNode → Prop}
    (F : Follower H Path Loose R) {v : Verifier} {now : Option UInt64} {st chain : ChainState} {b : Block}
    {reorg : ReorgResult} {db db' : StorageEngine} (htree : TreeInv H genesis st.tree) (hleaf : TipLeaf st.tree)
    (hproc : processBlockWithVerifier H v now st b = (chain, .ok (some reorg)))
    (hw : storeReorg H db chain.tree chain.tree.canonicalHeight b reorg = .ok db')
    (hold : Path (st.tree.getPathFromGenesis st.tree.canonicalTip))
    (hnew : Path (chain.tree.getPathFromGenesis chain.tree.canonicalTip)) (hloose : ∀ m ∈ st.tree.leaving H b, Loose m)
    (hR : R db (st.tree.getPathFromGenesis st.tree.canonicalTip)) :
    R db' (chain.tree.getPathFromGenesis chain.tree.canonicalTip) ∧
      db'.getCanonicalTip = some (chain.tree.canonicalTip, chain.tree.canonicalHeight) := by
  have hinv := (process_outcome H v now st b).treeInv htree
  rw [hproc] at hinv
  obtain ⟨stays, old, new, node, move⟩ := tip_move htree hleaf hproc
  rw [move.leaving] at hloose
  rw [move.before] at hold hR
  rw [move.after] at hnew ⊢
  rw [move.hash, move.height]
  unfold storeReorg at hw
  split at hw
  · rename_i hempty
    rw [move.left, List.isEmpty_iff, List.map_eq_nil_iff, List.reverse_eq_nil_iff] at hempty
    obtain rfl := move.extension hempty
    subst hempty
    rw [List.append_nil] at hR
    rw [List.nil_append] at hnew ⊢
    rw [← move.block, move.height, move.work] at hw
    exact F.commitBlock _ hnew hR hw
  · rw [move.entered_meta hinv, move.left] at hw
    exact F.applyReorganization hold hnew (fun m hm => hloose m (List.mem_reverse.mpr hm)) hR hw

/-! ## Runs -/

theorem fresh_tipLeaf {bits : UInt32} {depth : UInt64} {fault : Option StorageError} {init : Node}
    (hinit : recoverFresh H bits depth fault = .ok init) : TipLeaf init.chain.tree := by
  obtain ⟨utxo, -, hchain, -⟩ := recoverFresh_ok hinit
  rw [hchain]
  exact (tipLeaf_new H _).congr rfl rfl

variable (eng) in
theorem step_tipLeaf {node : Node} (htree : TreeInv H genesis node.chain.tree) (h : TipLeaf node.chain.tree) (op : NodeOp) :
    TipLeaf (node.step H eng op).chain.tree := by
  rcases step_tree H eng node op with e | ⟨k, e⟩ | ⟨b, -, e⟩
  · rw [e]
    exact h
  · rw [e]
    exact h.congr rfl rfl
  · rw [e]
    exact (process_outcome H _ op.clock node.chain b).tipLeaf htree h

theorem runs_tipLeaf {allowed : Node → NodeOp → Prop} (hsnap : ∀ node op, allowed node op → ¬op.isSnapshot)
    {bits : UInt32} {depth : UInt64} {fault : Option StorageError} {init node : Node}
    (hinit : recoverFresh H bits depth fault = .ok init) (hr : NodeReach H eng allowed init node) :
    TipLeaf node.chain.tree := by
  induction hr with
  | start => exact fresh_tipLeaf hinit
  | step hreach op _ ih => exact step_tipLeaf eng (runs_stateInv hsnap hinit hreach).tree ih op

/-- A call that moves no tip leaves the tip's path and height. -/
theorem Outcome.path_unchanged {v : Verifier} {now : Option UInt64} {st : ChainState} {b : Block}
    {r : ChainState × Except ChainError (Option ReorgResult)} (o : Outcome H v now st b r)
    (h : TreeInv H genesis st.tree) (hr : ∀ res, r.2 ≠ .ok (some res)) :
    r.1.tree.getPathFromGenesis r.1.tree.canonicalTip = st.tree.getPathFromGenesis st.tree.canonicalTip ∧
      r.1.tree.canonicalTip = st.tree.canonicalTip ∧ r.1.tree.canonicalHeight = st.tree.canonicalHeight := by
  obtain ⟨n, htip⟩ := h.tip
  -- the tree keeps its nodes
  have hkept : ∀ t : ChainTree, TreeInv H genesis t → t.canonicalTip = st.tree.canonicalTip →
      (∀ k m, st.tree.getNode k = some m → t.getNode k = some m) →
      t.getPathFromGenesis t.canonicalTip = st.tree.getPathFromGenesis st.tree.canonicalTip ∧
        t.canonicalTip = st.tree.canonicalTip ∧ t.canonicalHeight = st.tree.canonicalHeight := by
    intro t ht htip' hsub
    refine ⟨?_, htip', ?_⟩
    · rw [htip']
      exact ChainTree.path_mono h.rooted ht.rooted hsub htip
    · rw [ChainTree.canonicalHeight, ChainTree.canonicalHeight, htip', hsub _ _ htip, htip]
  have hinv := o.treeInv h
  cases o with
  | refused e he => exact ⟨rfl, rfl, rfl⟩
  | known m hm => exact ⟨rfl, rfl, rfl⟩
  | marked hs e he why =>
    refine hkept _ hinv (ChainTree.markAll_tip hs _) fun k m hk => ?_
    rw [ChainTree.getNode] at hk ⊢
    rw [ChainTree.markAll_nodes]
    exact hk
  | side parent node tip pu adm hnode => exact hkept _ hinv rfl (adm.grows hnode)
  | deep parent node tip pu adm depth hnode => exact hkept _ hinv rfl (adm.grows hnode)
  | switched parent node tip pu adm ancestor staged utxo res => exact absurd rfl (hr res)

/-- A mined template has the height it was built for. -/
def NodeOp.AtNextHeight (node : Node) : NodeOp → Prop
  | .mineBlock _ _ template _ => node.chain.tree.canonicalTip = template.previousBlockHash →
      template.height = node.chain.tree.canonicalHeight + 1
  | _ => True

/-- The tip's path and the tables of a node after an operation: as they were, or written for
    a move of the tip. -/
inductive Written (H : Hasher) (eng : Engines) (node : Node) (op : NodeOp) (node' : Node) : Prop where
  | same (path : node'.chain.tree.getPathFromGenesis node'.chain.tree.canonicalTip =
        node.chain.tree.getPathFromGenesis node.chain.tree.canonicalTip)
      (tip : node'.chain.tree.canonicalTip = node.chain.tree.canonicalTip)
      (height : node'.chain.tree.canonicalHeight = node.chain.tree.canonicalHeight)
      (storage : node'.storage = node.storage)
  | moved (now : Option UInt64) (b : Block) (reorg : ReorgResult) (block : op.block H = some b)
      (process : processBlockWithVerifier H (nodeBlockVerifier H eng) now node.chain b = (node'.chain, .ok (some reorg)))
      (write : storeReorg H node.storage node'.chain.tree node'.chain.tree.canonicalHeight b reorg = .ok node'.storage)

/-- A block on the tip that moves it stands one above it. -/
theorem height_of_extension {v : Verifier} {now : Option UInt64} {st chain : ChainState} {b : Block}
    {reorg : ReorgResult} (hproc : processBlockWithVerifier H v now st b = (chain, .ok (some reorg)))
    (hprev : b.header.previousBlockHash = st.tree.canonicalTip) :
    chain.tree.canonicalHeight = st.tree.canonicalHeight + 1 := by
  have o := process_outcome H v now st b
  rw [hproc] at o
  cases o with
  | switched parent node tip pu adm ancestor staged utxo r hnode htip =>
    have hpar := adm.parent_stored
    rw [hprev, htip] at hpar
    cases hpar
    show (((st.tree.insertNode node).getNode node.hash).map (·.height)).getD 0 = _
    rw [ChainTree.getNode_insertNode_self, ChainTree.canonicalHeight, htip]
    exact (newNode_eq hnode).2.2.1

theorem step_written (eng : Engines) {node : Node} (htree : TreeInv H genesis node.chain.tree) {op : NodeOp} (hop : ¬op.isSnapshot)
    (hheight : op.AtNextHeight node) : Written H eng node op (node.step H eng op) := by
  -- without a move neither the tables nor the tip's path change
  have hstay : ∀ {now b chain res}, processBlockWithVerifier H (nodeBlockVerifier H eng) now node.chain b = (chain, res) →
      (∀ x, res ≠ .ok (some x)) → Written H eng node op { node with chain := chain } := by
    intro now b chain res hp hres
    have hout := process_outcome H (nodeBlockVerifier H eng) now node.chain b
    rw [hp] at hout
    obtain ⟨hpath, htip, hheight⟩ := hout.path_unchanged htree hres
    exact .same hpath htip hheight rfl
  cases op with
  | applySnapshot => exact absurd trivial hop
  | submitTransaction now tx =>
    have hchain := submitTransaction_chain H eng now node tx
    have hstorage : (submitTransaction H eng now node tx).1.storage = node.storage := by
      simp only [submitTransaction]
      repeat' split
      all_goals rfl
    exact .same (by rw [Node.step, hchain]) (by rw [Node.step, hchain]) (by rw [Node.step, hchain]) hstorage
  | submitBlock now fault b =>
    have o := submit_outcome H eng now fault node b
    rw [Node.step]
    generalize submitExternalBlock H eng now fault node b = r at o
    cases o with
    | flagged | panicked | rejected | unstored => exact .same rfl rfl rfl rfl
    | refused chain e _ _ hp => exact hstay hp (by simp)
    | aside chain _ _ hp => exact hstay hp (by simp)
    | moved chain reorg db _ _ hp hw => exact .moved now b reorg rfl hp hw
  | mineBlock now fault template nonce =>
    rw [Node.step]
    simp only [mineBlock]
    split
    · exact .same rfl rfl rfl rfl
    · rename_i htip
      have htip := Decidable.not_not.mp htip
      split
      · rename_i hp
        exact hstay hp (by simp)
      · rename_i hp
        exact hstay hp (by simp)
      · rename_i chain reorg hp
        split
        · exact .same rfl rfl rfl rfl
        · rename_i db hw
          refine .moved now _ reorg rfl hp ?_
          have hw := writeTx_ok hw
          rw [hheight htip, ← height_of_extension hp htip.symm] at hw
          exact hw

section
variable {Path : List BlockNode → Prop} {Loose : BlockNode → Prop} {R : StorageEngine → List BlockNode → Prop}

/-- The genesis block, put on nothing. -/
theorem fresh_follows (F : Follower H Path Loose R) {bits : UInt32} {depth : UInt64} {fault : Option StorageError}
    {init : Node} (hinit : recoverFresh H bits depth fault = .ok init) (hempty : R StorageEngine.empty [])
    (hp : Path (init.chain.tree.getPathFromGenesis init.chain.tree.canonicalTip)) :
    R init.storage (init.chain.tree.getPathFromGenesis init.chain.tree.canonicalTip) ∧
      init.storage.getCanonicalTip = some (init.chain.tree.canonicalTip, init.chain.tree.canonicalHeight) := by
  obtain ⟨utxo, -, hchain, hcommit⟩ := recoverFresh_ok hinit
  have htree := initGenesis_treeInv hinit
  have htip : init.chain.tree.canonicalTip = (buildGenesisBlock H bits).header.hash H := by
    rw [hchain]
    rfl
  have hroot := htree.root
  rw [htip, ChainTree.path_root htree.rooted hroot] at hp ⊢
  have hheight : init.chain.tree.canonicalHeight = 0 := by
    rw [ChainTree.canonicalHeight, htip, hroot]
    rfl
  have hwork : init.chain.tree.canonicalWork = (genesisNode H (buildGenesisBlock H bits)).cumulativeWork := by
    rw [ChainTree.canonicalWork, htip, hroot]
    rfl
  rw [hwork] at hcommit
  rw [hheight] at hcommit ⊢
  exact F.commitBlock [] hp hempty hcommit

/-- One operation. -/
theorem Written.follows (F : Follower H Path Loose R) {node node' : Node} {op : NodeOp} (h : Written H eng node op node')
    (htree : TreeInv H genesis node.chain.tree) (hleaf : TipLeaf node.chain.tree)
    (hold : Path (node.chain.tree.getPathFromGenesis node.chain.tree.canonicalTip))
    (hnew : Path (node'.chain.tree.getPathFromGenesis node'.chain.tree.canonicalTip))
    (hloose : ∀ b, op.block H = some b → ∀ m ∈ node.chain.tree.leaving H b, Loose m)
    (hR : R node.storage (node.chain.tree.getPathFromGenesis node.chain.tree.canonicalTip))
    (htip : node.storage.getCanonicalTip = some (node.chain.tree.canonicalTip, node.chain.tree.canonicalHeight)) :
    R node'.storage (node'.chain.tree.getPathFromGenesis node'.chain.tree.canonicalTip) ∧
      node'.storage.getCanonicalTip = some (node'.chain.tree.canonicalTip, node'.chain.tree.canonicalHeight) := by
  cases h with
  | same path tip height storage =>
    rw [path, tip, height, storage]
    exact ⟨hR, htip⟩
  | moved now b reorg block process write =>
    exact moved_follows F htree hleaf process write hold hnew (hloose b block) hR

/-- The tables of every node of a run without snapshots follow its tip, and the stored tip
    is its tip. -/
theorem runs_follow (F : Follower H Path Loose R) {allowed : Node → NodeOp → Prop}
    (hsnap : ∀ node op, allowed node op → ¬op.isSnapshot) (hheight : ∀ node op, allowed node op → op.AtNextHeight node)
    (hloose : ∀ node op b, allowed node op → op.block H = some b → ∀ m ∈ node.chain.tree.leaving H b, Loose m)
    {bits : UInt32} {depth : UInt64} {fault : Option StorageError} {init node : Node}
    (hinit : recoverFresh H bits depth fault = .ok init) (hempty : R StorageEngine.empty [])
    (hpaths : ∀ node, NodeReach H eng allowed init node →
      Path (node.chain.tree.getPathFromGenesis node.chain.tree.canonicalTip))
    (hr : NodeReach H eng allowed init node) :
    R node.storage (node.chain.tree.getPathFromGenesis node.chain.tree.canonicalTip) ∧
      node.storage.getCanonicalTip = some (node.chain.tree.canonicalTip, node.chain.tree.canonicalHeight) := by
  induction hr with
  | start => exact fresh_follows F hinit hempty (hpaths init .start)
  | @step node hreach op hop ih =>
    have htree := (runs_stateInv hsnap hinit hreach).tree
    exact (step_written eng htree (hsnap _ _ hop) (hheight _ _ hop)).follows F htree (runs_tipLeaf hsnap hinit hreach)
      (hpaths _ hreach) (hpaths _ (.step hreach op hop)) (fun b hb => hloose _ _ b hop hb) ih.1 ih.2

end

end Scytale
