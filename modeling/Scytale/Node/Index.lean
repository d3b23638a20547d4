/-
  Scytale.Node.Index — the indexes of the storage against the canonical path
  (crates/scytale-storage/src/engine.rs, apps/scytale-node/src/node.rs).

  The indexes of heights, transactions, confirmations and addresses are written with every
  block that is connected, and undone by deletion when it is disconnected.
  - `Indexed`: the four tables have exactly the rows of a path.
  - `indexKept_follower`: connecting and disconnecting keep it on paths whose transactions
    have distinct identifiers.
  - `storage_indexes_exact`: so it holds after every step of every run without snapshots in
    which no block repeats a transaction of its own chain.
  - `repeated_coinbase_unindexed`: with a coinbase that two blocks of one chain share, a
    reorganisation deletes what the remaining block still has.
-/
import Scytale.Node.Agreement
import Scytale.Storage.Records

namespace Scytale

open Lib StorageEngine

variable {H : Hasher} {eng : Engines} {genesis : Block}

/-! ## What the indexes should hold -/

/-- The rows of the address index for a path behind blocks with these transactions. -/
def addressRows (H : Hasher) : List Transaction → List BlockNode → List (Bytes × List AddressTxRecord)
  | _, [] => []
  | txs, n :: ns => blockRows H (outputAmong H (txs ++ n.block.transactions)) n.block n.height ++
      addressRows H (txs ++ n.block.transactions) ns

/-- Where the transactions of a block are found. -/
def confirmRows (H : Hasher) (n : BlockNode) : List (Hash256 × Hash256 × UInt64) :=
  n.block.transactions.map fun t => (t.txid H, n.hash, n.height)

structure Indexed (H : Hasher) (db : StorageEngine) (path : List BlockNode) : Prop where
  heights : db.blockHeightIndex.Exactly (path.map fun n => (n.height, n.hash))
  transactions : db.transactions.Exactly ((chainTxs path).map fun t => (t.txid H, t))
  confirmed : db.txConfirmIndex.Exactly (path.flatMap (confirmRows H))
  addresses : db.addressTxIndex.Exactly (addressRows H [] path)

theorem confirmRows_keys (path : List BlockNode) :
    (path.flatMap (confirmRows H)).map (·.1) = (chainTxs path).map fun t => t.txid H := by
  simp [confirmRows, chainTxs, List.map_flatMap, Function.comp_def]

theorem addressRows_snoc (n : BlockNode) (ns : List BlockNode) : ∀ txs : List Transaction,
    addressRows H txs (ns ++ [n]) = addressRows H txs ns ++
      blockRows H (outputAmong H (txs ++ chainTxs (ns ++ [n]))) n.block n.height := by
  induction ns with
  | nil => intro txs; simp [addressRows, chainTxs]
  | cons m ns ih =>
    intro txs
    rw [List.cons_append, addressRows, ih, addressRows, List.append_assoc]
    simp [chainTxs]

theorem mem_blockRows {source : OutPoint → Option TxOut} {block : Block} {height : UInt64} {key : Bytes}
    (h : key ∈ (blockRows H source block height).map (·.1)) :
    ∃ address ∈ (blockRecords H source block).map (·.1), key = makeAddressTxKey address height := by
  rw [blockRows, List.map_map] at h
  obtain ⟨p, hp, rfl⟩ := List.mem_map.mp h
  refine ⟨p.1, ?_, rfl⟩
  have hrow := get_groupRecords (blockRecords H source block) p.1
  rw [Table.mem_toList.mp hp] at hrow
  by_contra hn
  rw [if_neg hn] at hrow
  cases hrow

theorem mem_addressRows {key : Bytes} {ns : List BlockNode} : ∀ {txs : List Transaction},
    key ∈ (addressRows H txs ns).map (·.1) → ∃ m ∈ ns, ∃ address, key = makeAddressTxKey address m.height := by
  induction ns with
  | nil => intro txs h; cases h
  | cons n ns ih =>
    intro txs h
    rw [addressRows, List.map_append, List.mem_append] at h
    rcases h with h | h
    · obtain ⟨address, -, he⟩ := mem_blockRows h
      exact ⟨n, List.mem_cons_self, address, he⟩
    · obtain ⟨m, hm, he⟩ := ih h
      exact ⟨m, List.mem_cons_of_mem _ hm, he⟩

/-- A key tells its height. -/
theorem makeAddressTxKey_height {a b : Bytes} {h h' : UInt64} (he : makeAddressTxKey a h = makeAddressTxKey b h') :
    h = h' := by
  have hsuffix := (List.append_inj' he (by simp)).2
  have hval := congrArg byteVal hsuffix
  have hlt : ∀ x : UInt64, x.toNat < 256 ^ 8 := fun x => x.toNat_lt
  rw [byteVal_beBytes, byteVal_beBytes, Nat.mod_eq_of_lt (hlt h), Nat.mod_eq_of_lt (hlt h')] at hval
  exact UInt64.toNat_inj.mp hval

/-! ## Paths -/

/-- A path that replays, with the heights from 0 on and no transaction twice. -/
structure Indexable (H : Hasher) (path : List BlockNode) : Prop extends Replays H path where
  heights : path.map (fun n => n.height.toNat) = List.range path.length
  identified : Identified H (chainTxs path)

theorem chainTxs_snoc (path : List BlockNode) (n : BlockNode) :
    chainTxs (path ++ [n]) = chainTxs path ++ n.block.transactions := by
  simp [chainTxs]

theorem Identified.left {xs ys : List Transaction} (h : Identified H (xs ++ ys)) : Identified H xs := by
  have hids := h.ids
  rw [List.map_append] at hids
  exact ⟨(List.nodup_append.mp hids).1, fun t ht => h.readable t (List.mem_append_left _ ht)⟩

namespace Indexable

variable {path : List BlockNode} {n : BlockNode}

theorem last_height (h : Indexable H (path ++ [n])) :
    path.map (fun n => n.height.toNat) = List.range path.length ∧ n.height.toNat = path.length := by
  have hh := h.heights
  rw [List.map_append, List.length_append, List.length_singleton, List.range_succ] at hh
  obtain ⟨h1, h2⟩ := List.append_inj' hh rfl
  exact ⟨h1, by simpa using h2⟩

theorem before (h : Indexable H (path ++ [n])) : Indexable H path := by
  have hid := h.identified
  rw [chainTxs_snoc] at hid
  exact ⟨h.toReplays.before, h.last_height.1, hid.left⟩

/-- The last block is higher than those before it. -/
theorem height_ne (h : Indexable H (path ++ [n])) {m : BlockNode} (hm : m ∈ path) : n.height ≠ m.height := by
  obtain ⟨h1, h2⟩ := h.last_height
  intro e
  have hmem : m.height.toNat ∈ List.range path.length := h1 ▸ List.mem_map.mpr ⟨m, hm, rfl⟩
  rw [List.mem_range, ← e, h2] at hmem
  exact absurd hmem (Nat.lt_irrefl _)

theorem height_fresh (h : Indexable H (path ++ [n])) : n.height ∉ (path.map fun m => (m.height, m.hash)).map (·.1) := by
  intro hm
  rw [List.map_map] at hm
  obtain ⟨m, hmem, he⟩ := List.mem_map.mp hm
  exact h.height_ne hmem he.symm

/-- Its transactions have identifiers of their own. -/
theorem ids_apart (h : Indexable H (path ++ [n])) : (n.block.transactions.map fun t => t.txid H).Nodup ∧
    ∀ id ∈ n.block.transactions.map fun t => t.txid H, id ∉ (chainTxs path).map fun t => t.txid H := by
  have hids := h.identified.ids
  rw [chainTxs_snoc, List.map_append] at hids
  obtain ⟨-, h2, h3⟩ := List.nodup_append.mp hids
  exact ⟨h2, fun id hid hm => h3 id hm id hid rfl⟩

/-- The outputs of the last block are new to the set before it. -/
theorem outputs_fresh (h : Indexable H (path ++ [n])) {s : UtxoSet} (hs : replay H UtxoSet.new path = .ok s) :
    ∀ t ∈ n.block.transactions, ∀ o ∈ t.outpoints H, s.entries[o]? = none := by
  intro t ht o ho
  have hsourced : Sourced (outputAmong H (chainTxs path)) s :=
    sourced_new.replayed (fun _ ht => h.before.identified.named ht) hs
  cases hg : s.entries[o]? with
  | none => rfl
  | some e =>
    have hmem := txid_mem_of_outputAmong (hsourced o e hg)
    rw [outpoints_txid ho] at hmem
    exact absurd hmem (h.ids_apart.2 _ (List.mem_map.mpr ⟨t, ht, rfl⟩))

end Indexable

/-! ## Connecting and disconnecting -/

/-- The indexes of a path, and what keeping them needs: the heights of its blocks, the set it
    leads to among the unspent outputs, and records that give the sets before back. -/
structure IndexKept (H : Hasher) (db : StorageEngine) (path : List BlockNode) : Prop where
  indexed : Indexed H db path
  infos : ∀ n ∈ path, ∃ info, db.blockIndex[n.hash]? = some info ∧ info.height = n.height
  within : ∀ {s}, replay H UtxoSet.new path = .ok s → Table.Within s.entries db.utxos
  undo : ∀ {before after n s s'}, path = before ++ n :: after → replay H UtxoSet.new before = .ok s →
    replay H UtxoSet.new (before ++ [n]) = .ok s' → ∃ u, db.blockUndo[n.hash]? = some u ∧
      ∀ t, Table.Within s'.entries t → Table.Within s.entries (u.revert t)

theorem indexKept_empty (H : Hasher) : IndexKept H StorageEngine.empty [] := by
  refine ⟨⟨Table.exactly_empty, Table.exactly_empty, Table.exactly_empty, Table.exactly_empty⟩, by simp, ?_, ?_⟩
  · intro s hs o e h
    cases hs
    exact h
  · intro before after n s s' hsplit
    simp at hsplit

/-- The indexes after a block was connected. -/
theorem Indexed.connect {db db' : StorageEngine} {path : List BlockNode} {n : BlockNode} (hpath : Indexable H (path ++ [n]))
    (h : Indexed H db path) {index : Table Bytes (List AddressTxRecord)}
    (hwrite : writeRecords n.height db.addressTxIndex (groupRecords (blockRecords H
      (outputAmong H (chainTxs (path ++ [n]))) n.block)).toList = .ok index)
    (hheights : db'.blockHeightIndex = db.blockHeightIndex.insert n.height n.hash)
    (htxs : db'.transactions = Table.insertAll db.transactions (n.block.transactions.map fun t => (t.txid H, t)))
    (hconfirmed : db'.txConfirmIndex = Table.insertAll db.txConfirmIndex (confirmRows H n))
    (haddresses : db'.addressTxIndex = index) : Indexed H db' (path ++ [n]) := by
  obtain ⟨hnodup, hapart⟩ := hpath.ids_apart
  refine ⟨?_, ?_, ?_, ?_⟩
  · rw [hheights, List.map_append]
    have hfresh : ∀ k ∈ [(n.height, n.hash)].map (·.1), k ∉ (path.map fun m => (m.height, m.hash)).map (·.1) := fun k hk => by
      rw [List.mem_singleton.mp hk]
      exact hpath.height_fresh
    exact h.heights.insertAll (by simp) hfresh
  · rw [htxs, chainTxs_snoc, List.map_append]
    refine h.transactions.insertAll (by simpa [List.map_map, Function.comp_def] using hnodup) fun k hk hm => ?_
    rw [List.map_map] at hk hm
    exact hapart k hk hm
  · rw [hconfirmed, List.flatMap_append, List.flatMap_singleton]
    refine h.confirmed.insertAll (by simpa [confirmRows, List.map_map, Function.comp_def] using hnodup) fun k hk hm => ?_
    rw [confirmRows, List.map_map] at hk
    rw [confirmRows_keys] at hm
    exact hapart k hk hm
  · -- no row has the height of the block yet
    have hfresh : ∀ address, makeAddressTxKey address n.height ∉ (addressRows H [] path).map (·.1) := by
      intro address hm
      obtain ⟨m, hm, b, hb⟩ := mem_addressRows hm
      exact hpath.height_ne hm (makeAddressTxKey_height hb)
    have hindex := writeRecords_fresh (Table.nodup_keys _) (fun p _ => h.addresses.get_none (hfresh p.1)) hwrite
    rw [haddresses, addressRows_snoc, List.nil_append, hindex]
    refine h.addresses.insertAll ?_ fun k hk => ?_
    · rw [List.map_map]
      have hkeys := Table.nodup_keys (groupRecords (blockRecords H (outputAmong H (chainTxs (path ++ [n]))) n.block))
      have hmap := hkeys.map (f := fun address => makeAddressTxKey address n.height) fun a b e => makeAddressTxKey_inj e
      rw [List.map_map] at hmap
      exact hmap
    · obtain ⟨address, -, rfl⟩ := mem_blockRows hk
      exact hfresh address

/-- The indexes after a block was disconnected. -/
theorem Indexed.disconnect {db db' : StorageEngine} {path : List BlockNode} {n : BlockNode}
    (hpath : Indexable H (path ++ [n])) (h : Indexed H db (path ++ [n]))
    (hheights : db'.blockHeightIndex = db.blockHeightIndex.erase n.height)
    (htxs : db'.transactions = Table.eraseAll db.transactions (n.block.transactions.map fun t => t.txid H))
    (hconfirmed : db'.txConfirmIndex = Table.eraseAll db.txConfirmIndex (n.block.transactions.map fun t => t.txid H))
    (haddresses : db'.addressTxIndex = removeBlockAddressRecords H db n.block n.height) : Indexed H db' path := by
  obtain ⟨-, hapart⟩ := hpath.ids_apart
  have h1 := h.heights
  have h2 := h.transactions
  have h3 := h.confirmed
  have h4 := h.addresses
  rw [List.map_append] at h1
  rw [chainTxs_snoc, List.map_append] at h2
  rw [List.flatMap_append, List.flatMap_singleton] at h3
  rw [addressRows_snoc, List.nil_append] at h4
  refine ⟨?_, ?_, ?_, ?_⟩
  · rw [hheights]
    have hfresh : ∀ k ∈ [n.height], k ∉ (path.map fun m => (m.height, m.hash)).map (·.1) := fun k hk => by
      rw [List.mem_singleton.mp hk]
      exact hpath.height_fresh
    exact h1.eraseAll (by simp) hfresh
  · rw [htxs]
    refine h2.eraseAll (fun k hk => ?_) fun k hk hm => ?_
    · rw [List.map_map] at hk
      exact hk
    · rw [List.map_map] at hm
      exact hapart k hk hm
  · rw [hconfirmed]
    refine h3.eraseAll (fun k hk => ?_) fun k hk hm => ?_
    · rw [confirmRows, List.map_map] at hk
      exact hk
    · rw [confirmRows_keys] at hm
      exact hapart k hk hm
  · rw [haddresses, removeBlockAddressRecords]
    have hmem : ∀ t ∈ n.block.transactions, t ∈ chainTxs (path ++ [n]) := fun t ht => by
      rw [chainTxs_snoc]
      exact List.mem_append_right _ ht
    refine h4.eraseAll (fun k hk => ?_) fun k hk hm => ?_
    · obtain ⟨address, haddress, rfl⟩ := mem_blockRows hk
      exact List.mem_map.mpr ⟨address, touchedAddresses_complete
        (previousOutput_eq hpath.identified h.transactions hmem) haddress, rfl⟩
    · obtain ⟨address, -, rfl⟩ := List.mem_map.mp hk
      obtain ⟨m, hm, b, hb⟩ := mem_addressRows hm
      exact hpath.height_ne hm (makeAddressTxKey_height hb)

theorem IndexKept.connect {db db' : StorageEngine} {path : List BlockNode} {n : BlockNode} (h : IndexKept H db path)
    (hpath : Indexable H (path ++ [n])) (hc : db.connectBlock H n.block n.height n.cumulativeWork = .ok db') :
    IndexKept H db' (path ++ [n]) := by
  obtain ⟨s, s', fees, hs, hs', hap⟩ := hpath.last
  have hhash := hpath.hashed n (by simp)
  obtain ⟨d, index, hd, hwrite, rfl⟩ := connectBlock_ok hc
  have hmem : ∀ t ∈ chainTxs path, t ∈ chainTxs (path ++ [n]) := fun t ht => by
    rw [chainTxs_snoc]
    exact List.mem_append_left _ ht
  have hown : ∀ t ∈ n.block.transactions, t ∈ chainTxs (path ++ [n]) := fun t ht => by
    rw [chainTxs_snoc]
    exact List.mem_append_right _ ht
  obtain ⟨hcovers, hrecords⟩ := storeTransactions_covers { db with
      blocks := db.blocks.insert (n.block.header.hash H) n.block
      blockHeightIndex := db.blockHeightIndex.insert n.height (n.block.header.hash H) } hpath.identified (h.within hs)
    (sourced_new.replayed (fun t ht => hpath.identified.named (hmem t ht)) hs) hown (hpath.outputs_fresh hs) hap hd
  rw [(storeTransactions_ok hd).1] at hcovers
  rw [hrecords] at hwrite
  rw [hhash]
  refine ⟨h.indexed.connect hpath hwrite rfl rfl rfl rfl, ?_, ?_, ?_⟩
  · intro m hm
    show ∃ info, (db.blockIndex.insert n.hash _)[m.hash]? = some info ∧ _
    rcases List.mem_append.mp hm with hm | hm
    · rw [Table.get_insert_ne _ _ (hhash ▸ hpath.hash_ne hm)]
      exact h.infos m hm
    · rw [List.mem_singleton.mp hm, Table.get_insert_self]
      exact ⟨_, rfl, rfl⟩
  · intro s₁ hs₁
    rw [hs'] at hs₁
    cases hs₁
    exact hcovers.within
  · intro before after m s₁ s₂ hsplit hs₁ hs₂
    show ∃ u, (db.blockUndo.insert n.hash _)[m.hash]? = some u ∧ _
    rcases Ancestry.concat_cut hsplit with ⟨rfl, rfl⟩ | ⟨rest, rfl⟩
    · rw [hs] at hs₁
      rw [hs'] at hs₂
      cases hs₁
      cases hs₂
      exact ⟨_, Table.get_insert_self _ _ _, fun t ht => hcovers.revert ht⟩
    · rw [Table.get_insert_ne _ _ (hhash ▸ hpath.hash_ne (by simp))]
      exact h.undo rfl hs₁ hs₂

theorem IndexKept.disconnect {db db' : StorageEngine} {path : List BlockNode} {n : BlockNode}
    (h : IndexKept H db (path ++ [n])) (hpath : Indexable H (path ++ [n]))
    (hd : db.disconnectBlock H n.block = .ok db') : IndexKept H db' path := by
  obtain ⟨s, s', fees, hs, hs', hap⟩ := hpath.last
  have hhash := hpath.hashed n (by simp)
  obtain ⟨info, hinfo, hheight⟩ := h.infos n (by simp)
  obtain ⟨u, hu, hback⟩ := h.undo (rfl : path ++ [n] = path ++ n :: []) hs hs'
  have hne : ∀ m ∈ path, n.hash ≠ m.hash := fun m hm => hhash ▸ hpath.hash_ne hm
  simp only [disconnectBlock, hhash, hinfo, hu] at hd
  cases hd
  refine ⟨h.indexed.disconnect hpath (by rw [hheight]) rfl rfl (by rw [hheight]), ?_, ?_, ?_⟩
  · intro m hm
    show ∃ info, (db.blockIndex.erase n.hash)[m.hash]? = some info ∧ _
    rw [Table.get_erase, if_neg (hne m hm)]
    exact h.infos m (List.mem_append_left _ hm)
  · intro s₁ hs₁
    rw [hs] at hs₁
    cases hs₁
    exact hback _ (h.within hs')
  · intro before after m s₁ s₂ hsplit hs₁ hs₂
    show ∃ u, (db.blockUndo.erase n.hash)[m.hash]? = some u ∧ _
    rw [Table.get_erase, if_neg (hne m (by rw [hsplit]; simp))]
    have hsplit' : path ++ [n] = before ++ m :: (after ++ [n]) := by
      rw [hsplit, List.append_assoc, List.cons_append]
    exact h.undo hsplit' hs₁ hs₂

theorem indexKept_follower (H : Hasher) : Follower H (Indexable H) (fun _ => True) (IndexKept H) where
  before := Indexable.before
  setTip := fun _ _ h => ⟨⟨h.indexed.heights, h.indexed.transactions, h.indexed.confirmed, h.indexed.addresses⟩,
    h.infos, h.within, h.undo⟩
  connect := fun hpath h hc => h.connect hpath hc
  disconnect := fun hpath _ h hd => h.disconnect hpath hd

/-! ## Runs -/

/-- A property of the path of every stored block stays one, if the block processed has it
    behind its parent's path. -/
theorem Outcome.every_path {P : List BlockNode → Prop} {v : Verifier} {now : Option UInt64} {st : ChainState} {b : Block}
    {r : ChainState × Except ChainError (Option ReorgResult)} (o : Outcome H v now st b r)
    (h : TreeInv H genesis st.tree) (hP : ∀ k n, st.tree.getNode k = some n → P (st.tree.getPathFromGenesis k))
    (hnew : ∀ node, node.block = b → P (st.tree.getPathFromGenesis b.header.previousBlockHash ++ [node])) :
    ∀ k n, r.1.tree.getNode k = some n → P (r.1.tree.getPathFromGenesis k) := by
  have hinsert : ∀ {parent node pu}, Admitted H now st b parent pu → newNode H parent b = some node →
      ∀ k n, (st.tree.insertNode node).getNode k = some n → P ((st.tree.insertNode node).getPathFromGenesis k) := by
    intro parent node pu adm hnode k n hk
    rw [ChainTree.getNode_insertNode] at hk
    split at hk
    · rename_i e
      rw [← e, adm.stored_path hnode h]
      exact hnew node (newNode_eq hnode).2.2.2.1
    · rw [adm.kept_path hnode h hk]
      exact hP k n hk
  cases o with
  | refused e he => exact hP
  | known m hm => exact hP
  | marked hs e he why =>
    intro k n hk
    have hg : (st.tree.markAll hs).getNode = st.tree.getNode := funext fun k => by
      rw [ChainTree.getNode, ChainTree.getNode, ChainTree.markAll_nodes]
    change (st.tree.markAll hs).getNode k = some n at hk
    show P ((st.tree.markAll hs).getPathFromGenesis k)
    rw [ChainTree.getPathFromGenesis, ChainTree.walkBack, hg]
    rw [hg] at hk
    exact hP k n hk
  | side parent node tip pu adm hnode => exact hinsert adm hnode
  | deep parent node tip pu adm depth hnode => exact hinsert adm hnode
  | switched parent node tip pu adm ancestor staged utxo r hnode => exact hinsert adm hnode

/-- No snapshots, and no block that repeats a transaction of its chain or of itself, or has
    one that cannot be read back. -/
structure Repeatless (H : Hasher) (node : Node) (op : NodeOp) : Prop where
  plain : ¬op.isSnapshot
  height : op.AtNextHeight node
  new : ∀ b, op.block H = some b →
    Identified H (chainTxs (node.chain.tree.getPathFromGenesis b.header.previousBlockHash) ++ b.transactions)

theorem identified_genesis (H : Hasher) (bits : UInt32) : Identified H (buildGenesisBlock H bits).transactions := by
  refine ⟨List.nodup_singleton _, fun t ht => ?_⟩
  rw [List.mem_singleton.mp ht]
  decide

/-- A property of all paths of the tree stays one over an operation that puts its block on a
    path that leaves it so. -/
theorem step_every_path {P : List BlockNode → Prop} (eng : Engines) {node : Node} {op : NodeOp}
    (htree : TreeInv H genesis node.chain.tree)
    (h : ∀ k n, node.chain.tree.getNode k = some n → P (node.chain.tree.getPathFromGenesis k))
    (hnew : ∀ n, op.block H = some n.block →
      P (node.chain.tree.getPathFromGenesis n.block.header.previousBlockHash ++ [n])) :
    ∀ k n, (node.step H eng op).chain.tree.getNode k = some n → P ((node.step H eng op).chain.tree.getPathFromGenesis k) := by
  rcases step_tree H eng node op with e | ⟨k, e⟩ | ⟨b, hb, e⟩
  · rw [e]
    exact h
  · rw [e]
    exact h
  · rw [e]
    refine (process_outcome H _ op.clock node.chain b).every_path htree h fun n hn => ?_
    subst hn
    exact hnew n hb

/-- A fresh tree has one path. -/
theorem fresh_path {bits : UInt32} {depth : UInt64} {fault : Option StorageError} {init : Node}
    (hinit : recoverFresh H bits depth fault = .ok init) {k : Hash256} {n : BlockNode}
    (hk : init.chain.tree.getNode k = some n) : k = (buildGenesisBlock H bits).header.hash H ∧
      init.chain.tree.getPathFromGenesis k = [genesisNode H (buildGenesisBlock H bits)] := by
  obtain ⟨utxo, -, hchain, -⟩ := recoverFresh_ok hinit
  have htree := initGenesis_treeInv hinit
  have hroot : k = (buildGenesisBlock H bits).header.hash H := by
    rw [hchain] at hk
    exact ChainTree.eq_genesis_of_new hk
  exact ⟨hroot, by rw [hroot, ChainTree.path_root htree.rooted htree.root]⟩

theorem fresh_identified {bits : UInt32} {depth : UInt64} {fault : Option StorageError} {init : Node}
    (hinit : recoverFresh H bits depth fault = .ok init) :
    ∀ k n, init.chain.tree.getNode k = some n → Identified H (chainTxs (init.chain.tree.getPathFromGenesis k)) := by
  intro k n hk
  rw [(fresh_path hinit hk).2]
  simpa [chainTxs, genesisNode] using identified_genesis H bits

variable (eng) in
theorem Repeatless.step_identified {node : Node} {op : NodeOp} (hop : Repeatless H node op)
    (htree : TreeInv H genesis node.chain.tree)
    (h : ∀ k n, node.chain.tree.getNode k = some n → Identified H (chainTxs (node.chain.tree.getPathFromGenesis k))) :
    ∀ k n, (node.step H eng op).chain.tree.getNode k = some n →
      Identified H (chainTxs ((node.step H eng op).chain.tree.getPathFromGenesis k)) := by
  refine step_every_path (P := fun path => Identified H (chainTxs path)) eng htree h fun n hn => ?_
  rw [chainTxs_snoc]
  exact hop.new n.block hn

/-- Every chain of the tree has distinct transactions. -/
theorem runs_identified {bits : UInt32} {depth : UInt64} {fault : Option StorageError} {init node : Node}
    (hinit : recoverFresh H bits depth fault = .ok init) (hr : NodeReach H eng (Repeatless H) init node) :
    ∀ k n, node.chain.tree.getNode k = some n → Identified H (chainTxs (node.chain.tree.getPathFromGenesis k)) := by
  induction hr with
  | start => exact fresh_identified hinit
  | step hreach op hop ih => exact hop.step_identified eng (runs_stateInv (fun _ _ h => h.plain) hinit hreach).tree ih

theorem TreeInv.path_heights {t : ChainTree} (h : TreeInv H genesis t) {k : Hash256} {n : BlockNode}
    (hk : t.getNode k = some n) : (t.getPathFromGenesis k).map (fun m => m.height.toNat) =
      List.range (n.height.toNat + 1) := by
  suffices hs : ∀ n, t.getNode k = some n → (t.getPathFromGenesis k).map (fun m => m.height.toNat) =
      List.range (n.height.toNat + 1) from hs n hk
  refine h.rooted.induction (P := fun k => ∀ n, t.getNode k = some n →
    (t.getPathFromGenesis k).map (fun m => m.height.toNat) = List.range (n.height.toNat + 1)) ?_ ?_ hk
  · intro n hn
    have hzero : n.height.toNat = 0 := h.rooted.height_root hn
    rw [ChainTree.path_root h.rooted hn, hzero]
    simp [hzero]
  · intro k n hk hr ih m hm
    rw [hk] at hm
    cases hm
    obtain ⟨-, p, hc⟩ := h.child hk hr
    have hheight : n.height.toNat = p.height.toNat + 1 := by
      rw [hc.height, height_succ (h.low hc.parent_stored) hc.later]
    rw [ChainTree.path_child h.rooted hk hr, List.map_append, ih p hc.parent_stored, ← hheight,
      List.range_succ (n := n.height.toNat), List.map_singleton]

/-- The tip's path can be indexed. -/
theorem StateInv.indexable {st : ChainState} (h : StateInv H genesis st)
    (hid : ∀ k n, st.tree.getNode k = some n → Identified H (chainTxs (st.tree.getPathFromGenesis k))) :
    Indexable H (st.tree.getPathFromGenesis st.tree.canonicalTip) := by
  obtain ⟨n, htip⟩ := h.tree.tip
  refine ⟨h.replays, ?_, hid _ n htip⟩
  rw [h.tree.path_heights htip, h.tree.path_length htip]

/-- In every state of every such run from a fresh node: the heights of the canonical path are
    those from 0 to the tip's, the index of heights has exactly its blocks, the transactions
    and their locations are exactly those of its blocks, and the address index has at each
    height exactly the records of its block there. -/
theorem storage_indexes_exact {bits : UInt32} {depth : UInt64} {fault : Option StorageError} {init node : Node}
    (hinit : recoverFresh H bits depth fault = .ok init) (hr : NodeReach H eng (Repeatless H) init node) :
    node.storage.getCanonicalTip = some (node.chain.tree.canonicalTip, node.chain.tree.canonicalHeight) ∧
      (node.chain.tree.getPathFromGenesis node.chain.tree.canonicalTip).map (fun n => n.height.toNat) =
        List.range (node.chain.tree.canonicalHeight.toNat + 1) ∧
      Indexed H node.storage (node.chain.tree.getPathFromGenesis node.chain.tree.canonicalTip) := by
  have hpaths : ∀ node, NodeReach H eng (Repeatless H) init node →
      Indexable H (node.chain.tree.getPathFromGenesis node.chain.tree.canonicalTip) := fun node hn =>
    (runs_stateInv (fun _ _ h => h.plain) hinit hn).indexable (runs_identified hinit hn)
  obtain ⟨hkept, hstored⟩ := runs_follow (indexKept_follower H) (fun _ _ h => h.plain) (fun _ _ h => h.height)
    (fun _ _ _ _ _ _ _ => trivial) hinit (indexKept_empty H) hpaths hr
  refine ⟨hstored, ?_, hkept.indexed⟩
  obtain ⟨n, htip⟩ := (runs_stateInv (fun _ _ h => h.plain) hinit hr).tree.tip
  rw [(runs_stateInv (fun _ _ h => h.plain) hinit hr).tree.path_heights htip, ChainTree.canonicalHeight, htip]
  rfl

set_option maxRecDepth 10000 in
/-- The node after its first block. -/
theorem storage_indexes_exact_first : (firstNode Blake3.digest).chain.tree.canonicalHeight = 1 ∧
    Indexed Blake3.digest (firstNode Blake3.digest).storage ((firstNode Blake3.digest).chain.tree.getPathFromGenesis
      (firstNode Blake3.digest).chain.tree.canonicalTip) := by
  have hop : Repeatless Blake3.digest (freshNode Blake3.digest)
      (.submitBlock (some 1000) none (firstBlock Blake3.digest)) := by
    refine ⟨id, trivial, fun b hb => ?_⟩
    cases hb
    exact ⟨by decide +kernel, by decide +kernel⟩
  have hreach : NodeReach Blake3.digest acceptAll (Repeatless Blake3.digest) (freshNode Blake3.digest)
      (firstNode Blake3.digest) := .step .start _ hop
  exact ⟨by decide +kernel, (storage_indexes_exact freshNode_recovered hreach).2.2⟩

/-! ## One coinbase in two blocks of a chain -/

/-- A coinbase that pays nothing, and so may be mined again. -/
def blankCoinbase : Transaction := Transaction.newCoinbase 1 [⟨0, [0x6a]⟩]

/-- A block with it on a chain that left the unspent outputs of the genesis block. -/
def blankBlock (H : Hasher) (previous : Hash256) (timestamp : UInt64) : Block :=
  mined H previous (freshNode H).chain.utxo 1 timestamp [blankCoinbase]

/-- Two such blocks, one on the other, and two others on the first of them. -/
def blankFirst (H : Hasher) : Block := blankBlock H (freshNode H).chain.tree.canonicalTip 60

def blankSecond (H : Hasher) : Block := blankBlock H ((blankFirst H).header.hash H) 120

def paidSecond (H : Hasher) : Block :=
  payingBlock H ((blankFirst H).header.hash H) (freshNode H).chain.utxo 2 130 [0x51]

def submitAll (H : Hasher) (node : Node) (blocks : List Block) : Node :=
  blocks.foldl (fun node b => node.step H acceptAll (.submitBlock (some 1000) none b)) node

def paidThird (H : Hasher) : Block :=
  payingBlock H ((paidSecond H).header.hash H) (submitAll H (freshNode H) [blankFirst H, paidSecond H]).chain.utxo 3 190
    [0x51]

/-- The node that took the four blocks. -/
def unindexedNode (H : Hasher) : Node :=
  submitAll H (freshNode H) [blankFirst H, blankSecond H, paidSecond H, paidThird H]

theorem submitAll_reached {init : Node} {blocks : List Block} : ∀ {node : Node},
    NodeReach H acceptAll (fun _ op => op.isSubmit) init node →
    NodeReach H acceptAll (fun _ op => op.isSubmit) init (submitAll H node blocks) := by
  induction blocks with
  | nil => intro node h; exact h
  | cons b blocks ih => intro node h; exact ih (.step h (.submitBlock (some 1000) none b) trivial)

set_option maxRecDepth 10000 in
/-- The last block moves the tip and takes the second of the two blocks back: the coinbase
    is in the first still, and not among the stored transactions. -/
theorem repeated_coinbase_unindexed :
    NodeReach Blake3.digest acceptAll (fun _ op => op.isSubmit) (freshNode Blake3.digest) (unindexedNode Blake3.digest) ∧
      (unindexedNode Blake3.digest).chain.tree.canonicalTip = (paidThird Blake3.digest).header.hash Blake3.digest ∧
      ¬Indexed Blake3.digest (unindexedNode Blake3.digest).storage ((unindexedNode Blake3.digest).chain.tree.getPathFromGenesis
        (unindexedNode Blake3.digest).chain.tree.canonicalTip) := by
  have hrun : (unindexedNode Blake3.digest).chain.tree.canonicalTip = (paidThird Blake3.digest).header.hash Blake3.digest ∧
      blankCoinbase ∈ chainTxs ((unindexedNode Blake3.digest).chain.tree.getPathFromGenesis
        (unindexedNode Blake3.digest).chain.tree.canonicalTip) ∧
      ((unindexedNode Blake3.digest).storage.transactions[blankCoinbase.txid Blake3.digest]?).isSome = false := by
    decide +kernel
  refine ⟨submitAll_reached .start, hrun.1, fun h => ?_⟩
  have hstored := (h.transactions (blankCoinbase.txid Blake3.digest) blankCoinbase).mpr
    (List.mem_map.mpr ⟨_, hrun.2.1, rfl⟩)
  have hnone := hrun.2.2
  rw [hstored] at hnone
  cases hnone

end Scytale
