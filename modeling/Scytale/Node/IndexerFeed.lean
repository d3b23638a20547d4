/-
  Scytale.Node.IndexerFeed — the relational index as the node feeds it
  (apps/scytale-node/src/node.rs).

  The index is written after the storage: the block that extends the tip, or, after a
  reorganisation, the blocks that are connected. What the disconnected blocks added or marked
  spent is left as it is, and a write that fails is only logged.
  - `Indexes.move`: what a move of the tip must meet for the index to follow it.
  - `indexer_agrees`: in every run whose moves all do, each address's balance is the sum of
    its outputs in the replay of the canonical chain.
  - `reorg_keeps_balance`: a reorganisation after which the index still counts an output of a
    block that was taken back.
-/
import Scytale.Indexer.Mirror
import Scytale.Consensus.SupplyCap
import Scytale.Consensus.NoReplay
import Scytale.Node.Follow

namespace Scytale

open Lib IndexerStore

/-! ## Feeding the index -/

section
variable (H : Hasher)

/-- A failed write leaves the index as it is. -/
def indexLogged (store : IndexerStore) (block : Block) (height : UInt64) : IndexerStore :=
  match store.indexBlock height (block.header.hash H) block.header.previousBlockHash block.header.timestamp
      block.header.transactionCommitment block.header.utxoRoot (extractBlockIndexerPayload H block) with
  | .ok store => store
  | .error _ => store

/-- The index after a move of the tip to a block at `height`. -/
def indexReorg (store : IndexerStore) (tree : ChainTree) (height : UInt64) (block : Block) (reorg : ReorgResult) :
    IndexerStore :=
  if reorg.disconnectedBlocks.isEmpty then indexLogged H store block height
  else (reorg.connectedBlocks.map (connectedMeta H tree height)).foldl (fun store m => indexLogged H store m.1 m.2.1) store

end

/-- A node with its indexer store. -/
structure IndexedNode where
  node : Node
  store : IndexerStore

namespace IndexedNode

/-- `recover` on a fresh database: the genesis block is committed with the index attached. -/
def fresh (H : Hasher) (genesisDifficultyTarget : UInt32) (node : Node) : IndexedNode :=
  ⟨node, indexLogged H .openInMemory (buildGenesisBlock H genesisDifficultyTarget) node.chain.tree.canonicalHeight⟩

def step (H : Hasher) (eng : Engines) (s : IndexedNode) (op : NodeOp) : IndexedNode :=
  ⟨s.node.step H eng op,
    match op with
    | .submitBlock now fault block =>
      match (submitExternalBlock H eng now fault s.node block).2,
          processBlockWithVerifier H (nodeBlockVerifier H eng) now s.node.chain block with
      | .ok true, (chain, .ok (some reorg)) => indexReorg H s.store chain.tree chain.tree.canonicalHeight block reorg
      | _, _ => s.store
    | .mineBlock now fault template nonce =>
      let block := template.assembleBlock (template.buildHeader H nonce)
      match (Scytale.mineBlock H eng now fault s.node template nonce).2,
          processBlockWithVerifier H (nodeBlockVerifier H eng) now s.node.chain block with
      | .ok true, (chain, .ok (some reorg)) => indexReorg H s.store chain.tree template.height block reorg
      | _, _ => s.store
    | _ => s.store⟩

end IndexedNode

/-- The nodes of all runs from `init` in which each operation is allowed, with their stores. -/
inductive IndexedReach (H : Hasher) (eng : Engines) (allowed : Node → NodeOp → Prop) (init : IndexedNode) :
    IndexedNode → Prop where
  | start : IndexedReach H eng allowed init init
  | step {s : IndexedNode} (h : IndexedReach H eng allowed init s) (op : NodeOp) (hop : allowed s.node op) :
      IndexedReach H eng allowed init (s.step H eng op)

variable {H : Hasher} {eng : Engines} {genesis : Block}

theorem IndexedReach.node {allowed : Node → NodeOp → Prop} {init s : IndexedNode} (h : IndexedReach H eng allowed init s) :
    NodeReach H eng allowed init.node s.node := by
  induction h with
  | start => exact .start
  | step _ op hop ih => exact .step ih op hop

/-! ## What can be indexed -/

/-- The numbers of a block are SQL integers. -/
structure IntegersFit (n : BlockNode) : Prop where
  height : isInteger n.height = true
  timestamp : isInteger n.block.header.timestamp = true
  values : ∀ t ∈ n.block.transactions, ∀ out ∈ t.outputs, isInteger out.value = true

/-- Blocks, on the set they apply to, that fit and whose data carriers are idle. -/
def Feedable (H : Hasher) : UtxoSet → List BlockNode → Prop
  | _, [] => True
  | u, n :: ns => IntegersFit n ∧ CarriersIdle H u n.block.transactions ∧ ∀ u', replay H u [n] = .ok u' → Feedable H u' ns

/-- Every indexed block stands at its height in the tree. -/
def Placed (t : ChainTree) (store : IndexerStore) : Prop :=
  ∀ (h : UInt64) (row : BlockRow), store.indexBlocks[h]? = some row → ∃ n, t.getNode row.hash = some n ∧ n.height = h

theorem Placed.mono {t t' : ChainTree} {store : IndexerStore} (h : Placed t store)
    (hkept : ∀ k m, t.getNode k = some m → t'.getNode k = some m) : Placed t' store := by
  intro height row hrow
  obtain ⟨n, hn, hh⟩ := h height row hrow
  exact ⟨n, hkept _ _ hn, hh⟩

theorem Feedable.append {xs ys : List BlockNode} : ∀ {u u' : UtxoSet}, Feedable H u (xs ++ ys) → replay H u xs = .ok u' →
    Feedable H u' ys := by
  induction xs with
  | nil => intro u u' h hr; cases hr; exact h
  | cons n xs ih =>
    intro u u' h hr
    obtain ⟨u₁, fees, hap, hrest⟩ := replay_cons hr
    exact ih (h.2.2 u₁ (replay_one.mpr ⟨fees, hap⟩)) hrest

/-- A stored block that fits is indexed: nothing is logged. -/
theorem indexLogged_ok {t : ChainTree} (ht : TreeInv H genesis t) {store : IndexerStore} (hplaced : Placed t store)
    {k : Hash256} {n : BlockNode} (hn : t.getNode k = some n) (hfit : IntegersFit n) :
    (indexLogged H store n.block n.height).indexAddressUtxos =
        (extractBlockIndexerPayload H n.block).foldl writtenRows store.indexAddressUtxos ∧
      Placed t (indexLogged H store n.block n.height) := by
  have hhash := ht.block_hash hn
  have hints : ∀ p ∈ extractBlockIndexerPayload H n.block, isInteger p.fee = true ∧ ∀ out ∈ p.outputs, isInteger out.value = true := by
    intro p hp
    obtain ⟨tx, htx, rfl⟩ := List.mem_map.mp hp
    refine ⟨rfl, fun out hout => ?_⟩
    obtain ⟨i, hi, rfl⟩ := List.mem_mapIdx.mp hout
    exact hfit.values tx htx _ (List.getElem_mem hi)
  obtain ⟨store', hstore, hrows, hblocks⟩ := indexBlock_ok store (n.block.header.hash H)
    n.block.header.previousBlockHash n.block.header.transactionCommitment n.block.header.utxoRoot hfit.height hfit.timestamp
    hints fun h row hrow he => by
      obtain ⟨m, hm, hh⟩ := hplaced h row hrow
      rw [he, hhash, hn] at hm
      cases hm
      exact hh.symm
  have hlogged : indexLogged H store n.block n.height = store' := by rw [indexLogged, hstore]
  rw [hlogged]
  refine ⟨hrows, fun h row hrow => ?_⟩
  rcases hblocks h row hrow with ⟨rfl, he⟩ | hold
  · exact ⟨n, by rw [he, hhash, hn], rfl⟩
  · exact hplaced h row hold

/-- Stored blocks that are replayed, indexed one after the other. -/
theorem feed_nodes {t : ChainTree} (ht : TreeInv H genesis t) (ns : List BlockNode) : ∀ {u u' : UtxoSet} {store : IndexerStore},
    (∀ m ∈ ns, ∃ k, t.getNode k = some m) → Feedable H u ns → replay H u ns = .ok u' → Placed t store →
      Carries H store.indexAddressUtxos
        (ns.foldl (fun store n => indexLogged H store n.block n.height) store).indexAddressUtxos u u' (touched H (chainTxs ns)) ∧
      Placed t (ns.foldl (fun store n => indexLogged H store n.block n.height) store) := by
  induction ns with
  | nil =>
    intro u u' store _ _ hr hplaced
    cases hr
    exact ⟨.refl _ _, hplaced⟩
  | cons n ns ih =>
    intro u u' store hstored hfeed hr hplaced
    obtain ⟨hfit, hidle, hrest⟩ := hfeed
    obtain ⟨u₁, fees, hap, hlater⟩ := replay_cons hr
    obtain ⟨k, hk⟩ := hstored n List.mem_cons_self
    obtain ⟨hrows, hplaced₁⟩ := indexLogged_ok ht hplaced hk hfit
    have hone := carries_block store.indexAddressUtxos hap hidle
    obtain ⟨hmore, hplaced'⟩ := ih (fun m hm => hstored m (List.mem_cons_of_mem _ hm)) (hrest u₁ (replay_one.mpr ⟨fees, hap⟩)) hlater hplaced₁
    rw [hrows, extractBlockIndexerPayload] at hmore
    refine ⟨?_, hplaced'⟩
    rw [chainTxs, List.flatMap_cons, touched, List.flatMap_append]
    exact hone.trans hmore

/-! ## A move of the tip -/

/-- What the index holds for a chain state: every outpoint is shown, and every indexed block is
    placed. -/
structure Indexes (H : Hasher) (st : ChainState) (store : IndexerStore) : Prop where
  shown : ∀ o, Shows H store.indexAddressUtxos st.utxo o
  placed : Placed st.tree store

/-- The condition on a move of the tip: the blocks of the chain it leads to can be fed to the
    index, and each outpoint on which the sets at the old tip and at the fork differ is spent or
    created again by the blocks that are connected. -/
structure Refed (H : Hasher) (st chain : ChainState) (reorg : ReorgResult) : Prop where
  feedable : Feedable H UtxoSet.new (chain.tree.getPathFromGenesis chain.tree.canonicalTip)
  again : ∀ base, replay H UtxoSet.new ((st.tree.getPathFromGenesis st.tree.canonicalTip).take
      ((st.tree.getPathFromGenesis st.tree.canonicalTip).length - reorg.disconnectedBlocks.length)) = .ok base →
    ∀ o, o ∉ touched H (reorg.connectedBlocks.flatMap (·.transactions)) →
      (base.entries[o]?).map (·.output) = (st.utxo.entries[o]?).map (·.output)

theorem Shows.of_output {rows : Table OutPoint AddressUtxoRow} {u u' : UtxoSet} {o : OutPoint} (h : Shows H rows u o)
    (he : (u'.entries[o]?).map (·.output) = (u.entries[o]?).map (·.output)) : Shows H rows u' o := by
  refine ⟨fun e' hu' => ?_, fun row hrow hsp => ?_⟩
  · rw [hu', Option.map_some, eq_comm, Option.map_eq_some_iff] at he
    obtain ⟨e, hu, hout⟩ := he
    rw [h.row e hu, unspentRow, unspentRow, hout]
  · rcases h.unspent row hrow hsp with ⟨e, hu⟩ | hzero
    · rw [hu, Option.map_some, Option.map_eq_some_iff] at he
      obtain ⟨e', hu', -⟩ := he
      exact .inl ⟨e', hu'⟩
    · exact .inr hzero

theorem Indexes.move {v : Verifier} {now : Option UInt64} {st chain : ChainState} {b : Block} {reorg : ReorgResult}
    {store : IndexerStore} (hst : StateInv H genesis st) (hleaf : TipLeaf st.tree)
    (hproc : processBlockWithVerifier H v now st b = (chain, .ok (some reorg))) (hrefed : Refed H st chain reorg)
    (h : Indexes H st store) :
    Indexes H chain (indexReorg H store chain.tree chain.tree.canonicalHeight b reorg) := by
  have hchain := (process_outcome H v now st b).stateInv hst
  rw [hproc] at hchain
  obtain ⟨stays, old, new, node, move⟩ := tip_move hst.tree hleaf hproc
  -- the part that stays, and the rest of the new path on it
  have hnew := hchain.replayed
  have hfeed := hrefed.feedable
  rw [move.after] at hnew hfeed
  obtain ⟨base, hbase, hnew⟩ := replay_split hnew
  have hfeed := hfeed.append hbase
  -- feeding those blocks is what `indexReorg` does
  have hstore : indexReorg H store chain.tree chain.tree.canonicalHeight b reorg =
      (new ++ [node]).foldl (fun store n => indexLogged H store n.block n.height) store := by
    unfold indexReorg
    split
    · rename_i hempty
      rw [move.left, List.isEmpty_iff, List.map_eq_nil_iff, List.reverse_eq_nil_iff] at hempty
      rw [move.extension hempty, List.nil_append, List.foldl_cons, List.foldl_nil, move.block, move.height]
    · rw [move.entered_meta hchain.tree, List.foldl_map]
  rw [hstore]
  obtain ⟨hcarries, hplaced⟩ := feed_nodes hchain.tree (new ++ [node]) move.stored hfeed hnew (h.placed.mono move.kept)
  refine ⟨fun o => ?_, hplaced⟩
  by_cases ho : o ∈ touched H (chainTxs (new ++ [node]))
  · exact (hcarries o).1 ho
  · -- untouched: the old tip and the fork agree on it
    refine (hcarries o).2 ho ((h.shown o).of_output (hrefed.again base ?_ o ?_))
    · rw [move.before, move.left, List.length_append, List.length_map, List.length_reverse, Nat.add_sub_cancel, List.take_left']
      · exact hbase
      · rfl
    · rwa [move.entered, List.flatMap_map]

/-! ## Runs -/

/-- The condition on an operation: no snapshot, a mined template of the height it was built for,
    and a move of the tip that the index can follow. -/
structure FeedsIndex (H : Hasher) (eng : Engines) (node : Node) (op : NodeOp) : Prop where
  plain : ¬op.isSnapshot
  height : op.AtNextHeight node
  refed : ∀ b chain reorg, op.block H = some b →
    processBlockWithVerifier H (nodeBlockVerifier H eng) op.clock node.chain b = (chain, .ok (some reorg)) →
      Refed H node.chain chain reorg

/-- The chain and the store after an operation: the tip and its set as they were and the nodes
    kept, or a move of the tip that was indexed. -/
inductive StoreWritten (H : Hasher) (eng : Engines) (s : IndexedNode) (op : NodeOp) (s' : IndexedNode) : Prop where
  | same (utxo : s'.node.chain.utxo = s.node.chain.utxo)
      (kept : ∀ k m, s.node.chain.tree.getNode k = some m → s'.node.chain.tree.getNode k = some m)
      (store : s'.store = s.store)
  | moved (b : Block) (reorg : ReorgResult) (block : op.block H = some b)
      (process : processBlockWithVerifier H (nodeBlockVerifier H eng) op.clock s.node.chain b =
        (s'.node.chain, .ok (some reorg)))
      (store : s'.store = indexReorg H s.store s'.node.chain.tree s'.node.chain.tree.canonicalHeight b reorg)

/-- A call that moves no tip keeps the set and every stored block. -/
theorem Outcome.keeps {v : Verifier} {now : Option UInt64} {st : ChainState} {b : Block}
    {r : ChainState × Except ChainError (Option ReorgResult)} (o : Outcome H v now st b r)
    (hr : ∀ res, r.2 ≠ .ok (some res)) :
    r.1.utxo = st.utxo ∧ ∀ k m, st.tree.getNode k = some m → r.1.tree.getNode k = some m := by
  cases o with
  | refused e he => exact ⟨rfl, fun _ _ h => h⟩
  | known m hm => exact ⟨rfl, fun _ _ h => h⟩
  | marked hs e he why =>
    refine ⟨rfl, fun k m hk => ?_⟩
    rw [ChainTree.getNode] at hk ⊢
    rw [ChainTree.markAll_nodes]
    exact hk
  | side parent node tip pu adm hnode => exact ⟨rfl, adm.grows hnode⟩
  | deep parent node tip pu adm depth hnode => exact ⟨rfl, adm.grows hnode⟩
  | switched parent node tip pu adm ancestor staged utxo res => exact absurd rfl (hr res)

theorem step_storeWritten (s : IndexedNode) {op : NodeOp} (hop : ¬op.isSnapshot) (hheight : op.AtNextHeight s.node) :
    StoreWritten H eng s op (s.step H eng op) := by
  have hstay : ∀ {now b chain res} {store : IndexerStore},
      processBlockWithVerifier H (nodeBlockVerifier H eng) now s.node.chain b = (chain, res) →
        (∀ x, res ≠ .ok (some x)) → store = s.store → StoreWritten H eng s op ⟨{ s.node with chain := chain }, store⟩ := by
    intro now b chain res store hp hres hstore
    have hout := process_outcome H (nodeBlockVerifier H eng) now s.node.chain b
    rw [hp] at hout
    obtain ⟨hutxo, hkept⟩ := hout.keeps hres
    exact .same hutxo hkept hstore
  cases op with
  | applySnapshot => exact absurd trivial hop
  | submitTransaction now tx =>
    have hchain : (s.step H eng (.submitTransaction now tx)).node.chain = s.node.chain :=
      submitTransaction_chain H eng now s.node tx
    exact .same (by rw [hchain]) (by rw [hchain]; exact fun _ _ h => h) rfl
  | submitBlock now fault b =>
    have o := submit_outcome H eng now fault s.node b
    rw [IndexedNode.step, Node.step]
    generalize submitExternalBlock H eng now fault s.node b = r at o
    cases o with
    | flagged | panicked | rejected | unstored => exact .same rfl (fun _ _ h => h) rfl
    | refused chain e _ _ hp => exact hstay hp (by simp) rfl
    | aside chain _ _ hp => exact hstay hp (by simp) rfl
    | moved chain reorg db _ _ hp hw => exact .moved b reorg rfl hp (by simp [hp])
  | mineBlock now fault template nonce =>
    rw [IndexedNode.step, Node.step]
    simp only [mineBlock]
    by_cases htip : s.node.chain.tree.canonicalTip = template.previousBlockHash
    · rw [if_neg (not_not_intro htip)]
      cases hp : processBlockWithVerifier H (nodeBlockVerifier H eng) now s.node.chain
        (template.assembleBlock (template.buildHeader H nonce)) with
      | mk chain res =>
        cases res with
        | error e => exact hstay hp (by simp) rfl
        | ok res =>
          cases res with
          | none => exact hstay hp (by simp) rfl
          | some reorg =>
            simp only
            cases hw : writeTx fault (storeReorg H s.node.storage chain.tree template.height
              (template.assembleBlock (template.buildHeader H nonce)) reorg) with
            | error e => exact .same rfl (fun _ _ h => h) rfl
            | ok db =>
              refine .moved _ reorg rfl hp ?_
              rw [hheight htip, ← height_of_extension hp htip.symm]
    · rw [if_pos htip]
      exact .same rfl (fun _ _ h => h) rfl

/-- The numbers of the block are SQL integers, and it has no data carriers. -/
def BlockNode.isPlain (n : BlockNode) : Bool :=
  isInteger n.height && isInteger n.block.header.timestamp &&
    n.block.transactions.all fun t => t.outputs.all fun out => isInteger out.value && !out.isOpReturn

theorem feedable_of_plain {ns : List BlockNode} : ∀ {u : UtxoSet}, ns.all BlockNode.isPlain = true → Feedable H u ns := by
  induction ns with
  | nil => intro u _; trivial
  | cons n ns ih =>
    intro u h
    rw [List.all_cons, Bool.and_eq_true] at h
    obtain ⟨hn, h⟩ := h
    simp only [BlockNode.isPlain, Bool.and_eq_true, List.all_eq_true, Bool.not_eq_true'] at hn
    obtain ⟨⟨hheight, htime⟩, houts⟩ := hn
    refine ⟨⟨hheight, htime, fun t ht out hout => (houts t ht out hout).1⟩, fun t ht i out hout hop => ?_, fun _ _ => ih h⟩
    rw [(houts t ht out (List.mem_of_getElem? hout)).2] at hop
    cases hop

theorem feedable_genesis (bits : UInt32) : Feedable H UtxoSet.new [genesisNode H (buildGenesisBlock H bits)] := by
  refine feedable_of_plain ?_
  have houts : (buildGenesisCoinbase.outputs.all fun out => isInteger out.value && !out.isOpReturn) = true := by decide
  simpa [BlockNode.isPlain, genesisNode, buildGenesisBlock, isInteger] using houts

/-- The index of a fresh node. -/
theorem indexes_fresh {bits : UInt32} {depth : UInt64} {fault : Option StorageError} {init : Node}
    (hinit : recoverFresh H bits depth fault = .ok init) :
    Indexes H init.chain (IndexedNode.fresh H bits init).store := by
  obtain ⟨utxo, hap, hchain, -⟩ := recoverFresh_ok hinit
  have htree := initGenesis_treeInv hinit
  have hheight : init.chain.tree.canonicalHeight = (genesisNode H (buildGenesisBlock H bits)).height := by
    rw [ChainTree.canonicalHeight, hchain]
    have hroot := (treeInv_new H (buildGenesisBlock H bits)).root
    show (((ChainTree.new H (buildGenesisBlock H bits)).getNode ((buildGenesisBlock H bits).header.hash H)).map
      (·.height)).getD 0 = _
    rw [hroot]
    rfl
  have hempty : Placed init.chain.tree .openInMemory := fun h row hrow => by simp [openInMemory] at hrow
  obtain ⟨hcarries, hplaced⟩ := feed_nodes htree [genesisNode H (buildGenesisBlock H bits)]
    (fun m hm => ⟨(buildGenesisBlock H bits).header.hash H, by rw [List.mem_singleton.mp hm]; exact htree.root⟩)
    (feedable_genesis bits)
    (replay_one.mpr ⟨0, hap⟩) hempty
  rw [IndexedNode.fresh, hheight]
  refine ⟨fun o => ?_, hplaced⟩
  rw [hchain]
  by_cases ho : o ∈ touched H (chainTxs [genesisNode H (buildGenesisBlock H bits)])
  · exact (hcarries o).1 ho
  · exact (hcarries o).2 ho ⟨fun e he => by simp [UtxoSet.new] at he, fun row hrow => by simp [openInMemory] at hrow⟩

theorem runs_indexes {bits : UInt32} {depth : UInt64} {fault : Option StorageError} {init : Node} {s : IndexedNode}
    (hinit : recoverFresh H bits depth fault = .ok init)
    (hr : IndexedReach H eng (FeedsIndex H eng) (.fresh H bits init) s) : Indexes H s.node.chain s.store := by
  have hsnap : ∀ node op, FeedsIndex H eng node op → ¬op.isSnapshot := fun _ _ h => h.plain
  induction hr with
  | start => exact indexes_fresh hinit
  | @step s hreach op hop ih =>
    cases (step_storeWritten s hop.plain hop.height : StoreWritten H eng s op (s.step H eng op)) with
    | same utxo kept store =>
      refine ⟨fun o => ?_, ?_⟩
      · rw [store, utxo]
        exact ih.shown o
      · rw [store]
        exact ih.placed.mono kept
    | moved b reorg block process store =>
      rw [store]
      exact ih.move (runs_stateInv hsnap hinit hreach.node) (runs_tipLeaf hsnap hinit hreach.node) process
        (hop.refed _ _ _ block process)

/-- In every run from a fresh node with its index attached, over blocks from outside and mined
    ones, in which every move of the tip meets the condition: the index reports for each address
    the sum of its outputs that are unspent in the replay of the canonical chain. -/
theorem indexer_agrees {bits : UInt32} {depth : UInt64} {fault : Option StorageError} {init : Node} {s : IndexedNode}
    (hinit : recoverFresh H bits depth fault = .ok init)
    (hr : IndexedReach H eng (FeedsIndex H eng) (.fresh H bits init) s) (address : Bytes) :
    replay H UtxoSet.new (s.node.chain.tree.getPathFromGenesis s.node.chain.tree.canonicalTip) = .ok s.node.chain.utxo ∧
      ∃ balance, s.store.getAddressBalance address = .ok balance ∧
        balance.toNat = s.node.chain.utxo.balance H address := by
  have hst := runs_stateInv (fun _ _ (h : FeedsIndex H eng _ _) => h.plain) hinit hr.node
  obtain ⟨hcap, hmax⟩ := hst.within_cap
  have hquanta : maxSupply.toNat = 6600000000000000 := rfl
  have hle := s.node.chain.utxo.balance_le_total (H := H) address
  refine ⟨hst.replayed, _, getAddressBalance_shown (runs_indexes hinit hr).shown (by omega) address, ?_⟩
  rw [UInt64.toNat_ofNat', Nat.mod_eq_of_lt (by omega)]

/-! ## A branch that is taken back -/

/-- Nothing is taken back where only the block is put on. -/
theorem Refed.extension {st chain : ChainState} {reorg : ReorgResult} (hst : StateInv H genesis st)
    (hdisc : reorg.disconnectedBlocks = [])
    (hplain : (chain.tree.getPathFromGenesis chain.tree.canonicalTip).all BlockNode.isPlain = true) : Refed H st chain reorg := by
  refine ⟨feedable_of_plain hplain, fun base hbase o _ => ?_⟩
  rw [hdisc, List.length_nil, Nat.sub_zero, List.take_length, hst.replayed] at hbase
  cases hbase
  rfl

/-- The fresh node with its index, and the one that took the first block. -/
def freshIndexed (H : Hasher) : IndexedNode := .fresh H easyBits (freshNode H)

def firstIndexed (H : Hasher) : IndexedNode := (freshIndexed H).step H acceptAll (.submitBlock (some 1000) none (firstBlock H))

/-- The address the first block pays. -/
def firstAddress (H : Hasher) : Bytes := indexerAddress H [0x51]

/-- A block that is taken back from none and leaves a chain of plain ones. -/
def extendsPlainly : ChainState × Except ChainError (Option ReorgResult) → Bool
  | (chain, .ok (some reorg)) => reorg.disconnectedBlocks.isEmpty &&
      (chain.tree.getPathFromGenesis chain.tree.canonicalTip).all BlockNode.isPlain
  | _ => true

set_option maxRecDepth 10000 in
/-- The reward of the first block is reported. -/
theorem indexer_agrees_first :
    (∃ balance, (firstIndexed Blake3.digest).store.getAddressBalance (firstAddress Blake3.digest) = .ok balance ∧
      balance.toNat = (firstIndexed Blake3.digest).node.chain.utxo.balance Blake3.digest (firstAddress Blake3.digest)) ∧
    (firstIndexed Blake3.digest).node.chain.utxo.balance Blake3.digest (firstAddress Blake3.digest) = 2500000000 := by
  have hop : FeedsIndex Blake3.digest acceptAll (freshNode Blake3.digest)
      (.submitBlock (some 1000) none (firstBlock Blake3.digest)) := by
    refine ⟨id, trivial, fun b chain reorg hb hp => ?_⟩
    cases hb
    have hst : StateInv Blake3.digest (buildGenesisBlock Blake3.digest easyBits) (freshNode Blake3.digest).chain :=
      runs_stateInv (fun _ _ h => h) freshNode_recovered
        (.start : NodeReach Blake3.digest acceptAll (fun _ op => ¬op.isSnapshot) _ _)
    have hrun : extendsPlainly (processBlockWithVerifier Blake3.digest (nodeBlockVerifier Blake3.digest acceptAll)
        (some 1000) (freshNode Blake3.digest).chain (firstBlock Blake3.digest)) = true := by decide +kernel
    simp only [NodeOp.clock] at hp
    rw [hp] at hrun
    simp only [extendsPlainly, Bool.and_eq_true, List.isEmpty_iff] at hrun
    exact .extension hst hrun.1 hrun.2
  exact ⟨(indexer_agrees freshNode_recovered (.step .start _ hop) _).2, by decide +kernel⟩

/-- A block beside the first one, and one on top of that. -/
def besideBlock (H : Hasher) : Block :=
  payingBlock H (freshNode H).chain.tree.canonicalTip (freshNode H).chain.utxo 1 60 [0x52]

def besideIndexed (H : Hasher) : IndexedNode :=
  (firstIndexed H).step H acceptAll (.submitBlock (some 1000) none (besideBlock H))

def aboveBlock (H : Hasher) : Block :=
  payingBlock H ((besideBlock H).header.hash H)
    (submitExternalBlock H acceptAll (some 1000) none (freshNode H) (besideBlock H)).1.chain.utxo 2 120 [0x52]

def switchedIndexed (H : Hasher) : IndexedNode :=
  (besideIndexed H).step H acceptAll (.submitBlock (some 1000) none (aboveBlock H))

set_option maxRecDepth 10000 in
/-- Three successful calls: the reward of the block that was taken back is still reported. -/
theorem reorg_keeps_balance :
    IndexedReach Blake3.digest acceptAll (fun _ op => op.isSubmit) (freshIndexed Blake3.digest) (switchedIndexed Blake3.digest) ∧
      (switchedIndexed Blake3.digest).node.chain.tree.canonicalTip = (aboveBlock Blake3.digest).header.hash Blake3.digest ∧
      (switchedIndexed Blake3.digest).store.getAddressBalance (firstAddress Blake3.digest) = .ok 2500000000 ∧
      (switchedIndexed Blake3.digest).node.chain.utxo.balance Blake3.digest (firstAddress Blake3.digest) = 0 := by
  refine ⟨.step (.step (.step .start _ trivial) _ trivial) _ trivial, ?_⟩
  decide +kernel

end Scytale
