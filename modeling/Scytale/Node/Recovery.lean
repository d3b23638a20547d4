/-
  Scytale.Node.Recovery — a restart gives back the chain the node had
  (apps/scytale-node/src/node.rs, crates/scytale-storage/src/engine.rs).

  `recover` walks the parent links from the stored tip through the stored blocks and
  processes them in a new tree. A reorganisation deletes only the blocks it disconnects, so
  those of the tip's path are always there; and each of them passes again, since its checks
  depend on the path below it, on the set that path leads to and on the clock.
  - `pathStored_follower`: the blocks of the tip's path stay stored.
  - `storedPath_eq`: then the walk finds the path.
  - `replayStored_good`: and the replay takes every block of it.
  - `restart_recovers`: so after every run without snapshots a restart succeeds, at any time
    not before the last operation, with the same tip, height, work and unspent outputs.
-/
import Scytale.Node.Follow
import Scytale.Storage.Delta
import Scytale.Consensus.Rebuild

namespace Scytale

open Lib StorageEngine

variable {H : Hasher} {eng : Engines} {genesis : Block} {now : Option UInt64} {S : List Block}

/-! ## The blocks of the path are stored -/

def PathStored (db : StorageEngine) (path : List BlockNode) : Prop := ∀ n ∈ path, db.blocks[n.hash]? = some n.block

theorem pathStored_follower : Follower H (Replays H) (fun _ => True) PathStored where
  before := Replays.before
  connect := by
    intro db db' path n hpath h hc
    obtain ⟨d, index, -, -, rfl⟩ := connectBlock_ok hc
    intro m hm
    rcases List.mem_append.mp hm with hm | hm
    · show (db.blocks.insert (n.block.header.hash H) n.block)[m.hash]? = some m.block
      rw [Table.get_insert_ne _ _ (hpath.hash_ne hm)]
      exact h m hm
    · rw [List.mem_singleton.mp hm, ← hpath.hashed n (by simp)]
      exact Table.get_insert_self _ _ _
  disconnect := by
    intro db db' path n hpath _ h hd
    obtain ⟨-, -, -, hblocks, -⟩ := disconnectBlock_ok hd
    intro m hm
    rw [hblocks, Table.get_erase, if_neg (hpath.hash_ne hm)]
    exact h m (List.mem_append_left _ hm)
  setTip := fun _ _ h => h

/-- The blocks of a path without repetitions are keys of the table. -/
theorem PathStored.length_le {db : StorageEngine} {path : List BlockNode} (h : PathStored db path)
    (hnd : (path.map (·.hash)).Nodup) : path.length ≤ db.blocks.size := by
  have hkeys : ∀ k ∈ path.map (·.hash), ∃ b, db.blocks[k]? = some b := by
    intro k hk
    obtain ⟨n, hn, rfl⟩ := List.mem_map.mp hk
    exact ⟨n.block, h n hn⟩
  simpa using Table.length_le_size hnd hkeys

/-- The walk over stored blocks that can be read back finds the path. -/
theorem storedPath_eq {t : ChainTree} {db : StorageEngine} (h : TreeInv H genesis t)
    (hfirst : genesis.header.previousBlockHash = Hash256.zero) (hzero : ∀ k n, t.getNode k = some n → k ≠ Hash256.zero)
    (hread : ∀ k n, t.getNode k = some n → n.block.decodable = true) {k : Hash256} {n : BlockNode}
    (hk : t.getNode k = some n) : PathStored db (t.getPathFromGenesis k) → ∀ f, (t.getPathFromGenesis k).length ≤ f →
      storedPath db f k = .ok ((t.getPathFromGenesis k).reverse.map (·.block)) := by
  have hget : ∀ {k n}, t.getNode k = some n → db.blocks[n.hash]? = some n.block → db.getBlock k = .ok (some n.block) := by
    intro k n hk hb
    rw [h.hash_eq hk] at hb
    simp only [getBlock, hb, hread k n hk, if_true]
  refine h.rooted.induction (P := fun k => PathStored db (t.getPathFromGenesis k) →
    ∀ f, (t.getPathFromGenesis k).length ≤ f →
      storedPath db f k = .ok ((t.getPathFromGenesis k).reverse.map (·.block))) ?_ ?_ hk
  · rw [ChainTree.path_root h.rooted h.root]
    intro hstored f hf
    obtain ⟨f, rfl⟩ : ∃ g, f = g + 1 := Nat.exists_eq_add_of_le' hf
    have hg := hget h.root (hstored _ (List.mem_singleton_self _))
    simp only [storedPath, hg]
    rw [if_pos (.inl hfirst)]
    rfl
  · intro k n hk hr ih
    obtain ⟨-, p, hc⟩ := h.child hk hr
    rw [ChainTree.path_child h.rooted hk hr]
    intro hstored f hf
    rw [List.length_append, List.length_singleton] at hf
    obtain ⟨f, rfl⟩ := Nat.exists_eq_add_of_le' (Nat.le_trans (Nat.le_add_left 1 _) hf)
    have hg := hget hk (hstored n (by simp))
    have hnotfirst : ¬(n.block.header.previousBlockHash = Hash256.zero ∨ n.block.header.previousBlockHash = k) := by
      rw [← hc.parentHash]
      rintro (e | e)
      · exact hzero _ _ hc.parent_stored e
      · -- a parent stands one lower
        obtain ⟨q, hq, hh⟩ := h.rooted.parent_mem hk hr
        rw [e, hk] at hq
        cases hq
        omega
    have hrest := ih (fun m hm => hstored m (List.mem_append_left _ hm)) f (by omega)
    simp only [storedPath, hg]
    rw [if_neg hnotfirst, ← hc.parentHash, hrest]
    simp

/-! ## The replay takes them -/

theorem replayStored_append {clock : Nat → Option UInt64} {bs : List Block} (b : Block) : ∀ {i : Nat} {st st' : ChainState},
    replayStored H eng clock i st bs = .ok st' → replayStored H eng clock i st (bs ++ [b]) =
      replayStored H eng clock (i + bs.length) st' [b] := by
  induction bs with
  | nil => intro i st st' h; cases h; rfl
  | cons c bs ih =>
    intro i st st' h
    rw [List.cons_append]
    rw [replayStored] at h ⊢
    split at h
    · cases h
    · rename_i st₁ r hp
      rw [ih h, List.length_cons, Nat.add_right_comm, Nat.add_assoc]

/-- A path that is valid all the way is rebuilt. -/
theorem replayStored_good {clock : Nat → Option UInt64} {π : List BlockNode}
    (hgood : Good H (nodeBlockVerifier H eng) now genesis S π) (hclock : ∀ i, ClockLe now (clock i)) {st : ChainState}
    (hstart : Rebuilt H genesis [genesisNode H genesis] st) : (π.map (·.hash)).Nodup → (∀ m ∈ π, m.hash ≠ Hash256.zero) →
      ∃ st', replayStored H eng clock 0 st (π.tail.map (·.block)) = .ok st' ∧ Rebuilt H genesis π st' := by
  induction hgood with
  | root => exact fun _ _ => ⟨st, rfl, hstart⟩
  | @extend π p n b pu u hgood ready hrep hconn ih =>
    intro hnd hzero
    rw [List.map_append] at hnd
    obtain ⟨hnd, -, hapart⟩ := List.nodup_append.mp hnd
    obtain ⟨st₁, hst₁, h₁⟩ := ih hnd fun m hm => hzero m (List.mem_append_left _ hm)
    have hfresh : ∀ m ∈ π, m.hash ≠ n.hash := fun m hm => hapart _ (List.mem_map.mpr ⟨m, hm, rfl⟩) _ (by simp)
    obtain ⟨st₂, r, hproc, h₂⟩ := h₁.extend (hclock (π.tail.map (·.block)).length) ready hrep hconn hfresh
      (hzero n (by simp))
    refine ⟨st₂, ?_, h₂⟩
    rw [List.tail_append_of_ne_nil hgood.ne_nil, List.map_append, List.map_singleton, replayStored_append _ hst₁, Nat.zero_add]
    simp only [replayStored, hproc]

/-- What `recover` makes of a stored tip whose path is found and taken. -/
theorem recover_ok {clock : Nat → Option UInt64} {bits : UInt32} {depth : UInt64} {fault : Option StorageError}
    {db : StorageEngine} {tip : Hash256} {height : UInt64} {rest : List Block} {coinbase : Transaction}
    {txs : List Transaction} {utxo : UtxoSet} {chain : ChainState} (htip : db.getCanonicalTip = some (tip, height))
    (hwalk : storedPath db (db.blocks.size + 1) tip = .ok (genesis :: rest).reverse)
    (hlength : UInt64.ofNat (genesis :: rest).length = height + 1) (htxs : genesis.transactions = coinbase :: txs)
    (hcoinbase : UtxoSet.applyCoinbase H UtxoSet.new coinbase 0 = (utxo, .ok ()))
    (hreplay : replayStored H eng clock 0 ⟨(ChainTree.new H genesis).withMaxReorgDepth depth, utxo⟩ rest = .ok chain) :
    recover H eng clock bits depth fault db = .ok ⟨chain, db, Mempool.new⟩ := by
  rw [← List.length_reverse] at hlength
  simp only [recover, htip, hwalk, List.reverse_reverse, hlength, htxs, hcoinbase, hreplay, ne_eq, not_true_eq_false,
    if_false]

/-! ## Runs -/

/-- An operation before the restart: not a snapshot, at a time up to `now`, and with a block that its
    caller read off bytes and whose hash is not zero. -/
structure BeforeRestart (H : Hasher) (now : Option UInt64) (node : Node) (op : NodeOp) : Prop where
  plain : ¬op.isSnapshot
  height : op.AtNextHeight node
  clock : ClockLe op.clock now
  decoded : ∀ b, op.block H = some b → b.decodable = true
  hashed : ∀ b, op.block H = some b → b.header.hash H ≠ Hash256.zero

/-- The tip's path is valid all the way over the blocks handed in. -/
theorem runs_grown {bits : UInt32} {depth : UInt64} {fault : Option StorageError} {init node : Node}
    (hinit : recoverFresh H bits depth fault = .ok init) (hr : NodeReach H eng (BeforeRestart H now) init node) :
    ∃ S : List Block, (∀ b ∈ S, b.decodable = true ∧ b.header.hash H ≠ Hash256.zero) ∧
      Grown H (nodeBlockVerifier H eng) now (buildGenesisBlock H bits) S node.chain.tree := by
  induction hr with
  | start =>
    obtain ⟨utxo, -, hchain, -⟩ := recoverFresh_ok hinit
    rw [hchain]
    exact ⟨[], by simp, (Grown.start H _ now _).congr (treeInv_new H _) rfl rfl⟩
  | @step node hreach op hop ih =>
    have hstate := runs_stateInv (fun _ _ h => h.plain) hinit hreach
    obtain ⟨S, hS, hgrown⟩ := ih
    rcases step_tree H eng node op with e | ⟨k, e⟩ | ⟨b, hb, e⟩
    · rw [e]
      exact ⟨S, hS, hgrown⟩
    · rw [e]
      exact ⟨S, hS, hgrown.congr hstate.tree rfl rfl⟩
    · rw [e]
      refine ⟨b :: S, ?_, (process_outcome H _ op.clock node.chain b).grown hop.clock hstate hgrown⟩
      intro c hc
      rcases List.mem_cons.mp hc with rfl | hc
      · exact ⟨hop.decoded c hb, hop.hashed c hb⟩
      · exact hS c hc

theorem buildGenesisBlock_decodable (H : Hasher) (bits : UInt32) : (buildGenesisBlock H bits).decodable = true := by
  have hcoinbase : buildGenesisCoinbase.decodable = true := by decide
  simp [Block.decodable, buildGenesisBlock, hcoinbase]
  decide

theorem genesisCoinbase_applies {bits : UInt32} {utxo : UtxoSet} {fees : UInt64}
    (h : UtxoSet.applyBlock H UtxoSet.new (buildGenesisBlock H bits).transactions 0 = .ok (utxo, fees)) :
    UtxoSet.applyCoinbase H UtxoSet.new buildGenesisCoinbase 0 = (utxo, .ok ()) := by
  obtain ⟨coinbase, rest, s, htxs, -, hap, hrest⟩ := UtxoSet.applyBlock_ok h
  cases htxs
  cases hrest
  exact hap

/-- What is stored in the tree can be read back, under a hash that is not zero. -/
theorem Grown.readable {v : Verifier} {t : ChainTree} (h : Grown H v now genesis S t) (htree : TreeInv H genesis t)
    (hS : ∀ b ∈ S, b.decodable = true ∧ b.header.hash H ≠ Hash256.zero)
    (hgenesis : genesis.decodable = true ∧ genesis.header.hash H ≠ Hash256.zero) {k : Hash256} {n : BlockNode}
    (hk : t.getNode k = some n) : n.block.decodable = true ∧ k ≠ Hash256.zero := by
  by_cases e : k = genesis.header.hash H
  · rw [e, htree.root] at hk
    cases hk
    exact ⟨hgenesis.1, e ▸ hgenesis.2⟩
  · obtain ⟨p, hready⟩ := h.ready k n hk e
    obtain ⟨hd, hz⟩ := hS _ hready.mem
    exact ⟨hd, htree.block_hash hk ▸ hz⟩

/-! ## The restart -/

/-- A tree with the same path has the same tip, height and work, and the same set. -/
theorem Rebuilt.agrees {st st' : ChainState} (h : StateInv H genesis st)
    (h' : Rebuilt H genesis (st.tree.getPathFromGenesis st.tree.canonicalTip) st') :
    st'.tree.canonicalTip = st.tree.canonicalTip ∧ st'.tree.canonicalHeight = st.tree.canonicalHeight ∧
      st'.tree.canonicalWork = st.tree.canonicalWork ∧ st'.utxo = st.utxo := by
  obtain ⟨n, htip⟩ := h.tree.tip
  obtain ⟨n', htip'⟩ := h'.state.tree.tip
  have hlast := h'.state.tree.path_last htip'
  rw [h'.path, h.tree.path_last htip] at hlast
  obtain rfl : n = n' := Option.some.inj hlast
  have hrep := h'.state.replayed
  rw [h'.path, h.replayed] at hrep
  refine ⟨by rw [← h.tree.hash_eq htip, ← h'.state.tree.hash_eq htip'], ?_, ?_, (Except.ok.inj hrep).symm⟩
  · rw [ChainTree.canonicalHeight, ChainTree.canonicalHeight, htip, htip']
  · rw [ChainTree.canonicalWork, ChainTree.canonicalWork, htip, htip']

/-- The stored tip is the tip, and the walk from it finds the tip's path. -/
theorem runs_storedPath {bits : UInt32} {depth : UInt64} {fault : Option StorageError} {init node : Node}
    (hinit : recoverFresh H bits depth fault = .ok init)
    (hgenesis : (buildGenesisBlock H bits).header.hash H ≠ Hash256.zero)
    (hr : NodeReach H eng (BeforeRestart H now) init node) :
    node.storage.getCanonicalTip = some (node.chain.tree.canonicalTip, node.chain.tree.canonicalHeight) ∧
      storedPath node.storage (node.storage.blocks.size + 1) node.chain.tree.canonicalTip =
        .ok ((node.chain.tree.getPathFromGenesis node.chain.tree.canonicalTip).reverse.map (·.block)) := by
  have hstate := runs_stateInv (fun _ _ h => h.plain) hinit hr
  have htree := hstate.tree
  obtain ⟨S, hS, hgrown⟩ := runs_grown hinit hr
  obtain ⟨hstored, htip⟩ := runs_follow pathStored_follower (fun _ _ h => h.plain) (fun _ _ h => h.height)
    (fun _ _ _ _ _ _ _ => trivial) hinit (by simp [PathStored])
    (fun _ hreach => (runs_stateInv (fun _ _ h => h.plain) hinit hreach).replays) hr
  have hread := fun {k n} (hk : node.chain.tree.getNode k = some n) =>
    hgrown.readable htree hS ⟨buildGenesisBlock_decodable H bits, hgenesis⟩ hk
  obtain ⟨n, hn⟩ := htree.tip
  have hfuel := Nat.le_succ_of_le (hstored.length_le hstate.replays.distinct)
  exact ⟨htip, storedPath_eq htree rfl (fun k m hk => (hread hk).2) (fun k m hk => (hread hk).1) hn hstored _ hfuel⟩

/-- After every run from a fresh database, without snapshots and with no clock moving back, a
    restart succeeds and gives back tip, height, work and unspent outputs. -/
theorem restart_recovers {bits : UInt32} {depth : UInt64} {fault : Option StorageError} {init node : Node}
    (hinit : recoverFresh H bits depth fault = .ok init)
    (hgenesis : (buildGenesisBlock H bits).header.hash H ≠ Hash256.zero)
    (hr : NodeReach H eng (BeforeRestart H now) init node) {clock : Nat → Option UInt64}
    (hclock : ∀ i, ClockLe now (clock i)) (bits' : UInt32) (depth' : UInt64) (fault' : Option StorageError) :
    ∃ node', recover H eng clock bits' depth' fault' node.storage = .ok node' ∧
      node'.chain.tree.canonicalTip = node.chain.tree.canonicalTip ∧
      node'.chain.tree.canonicalHeight = node.chain.tree.canonicalHeight ∧
      node'.chain.tree.canonicalWork = node.chain.tree.canonicalWork ∧ node'.chain.utxo = node.chain.utxo := by
  have hstate := runs_stateInv (fun _ _ h => h.plain) hinit hr
  have htree := hstate.tree
  obtain ⟨S, hS, hgrown⟩ := runs_grown hinit hr
  have hread := fun {k n} (hk : node.chain.tree.getNode k = some n) =>
    hgrown.readable htree hS ⟨buildGenesisBlock_decodable H bits, hgenesis⟩ hk
  obtain ⟨n, hn⟩ := htree.tip
  have hlength := htree.path_length hn
  have hreplays := hstate.replays
  -- the walk finds the path
  obtain ⟨htip, hwalk⟩ := runs_storedPath hinit hgenesis hr
  -- and the replay takes it
  obtain ⟨utxo, hap, -⟩ := recoverFresh_ok hinit
  have hzero : ∀ m ∈ node.chain.tree.getPathFromGenesis node.chain.tree.canonicalTip, m.hash ≠ Hash256.zero := by
    intro m hm
    obtain ⟨k, hk⟩ := htree.mem_path hn hm
    exact htree.hash_eq hk ▸ (hread hk).2
  obtain ⟨st, hreplay, hrebuilt⟩ := replayStored_good hgrown.good hclock (rebuilt_start depth' hap) hreplays.distinct hzero
  refine ⟨⟨st, node.storage, Mempool.new⟩, ?_, hrebuilt.agrees hstate⟩
  obtain ⟨rest, hrest⟩ := List.head?_eq_some_iff.mp (htree.isPath hn).first
  rw [hrest, List.map_reverse, List.map_cons] at hwalk
  rw [hrest] at hreplay hlength
  refine recover_ok htip hwalk ?_ rfl ?_ hreplay
  · rw [List.length_cons, List.length_map, ← List.length_cons, hlength, ChainTree.canonicalHeight, hn, UInt64.ofNat_add,
      UInt64.ofNat_toNat]
    rfl
  · exact genesisCoinbase_applies hap

set_option maxRecDepth 10000 in
/-- The node after its first block, restarted later. -/
theorem restart_recovers_first : (firstNode Blake3.digest).chain.tree.canonicalHeight = 1 ∧
    ∃ node', recover Blake3.digest acceptAll (fun _ => some 2000) easyBits defaultMaxReorgDepth none
        (firstNode Blake3.digest).storage = .ok node' ∧
      node'.chain.tree.canonicalTip = (firstNode Blake3.digest).chain.tree.canonicalTip ∧
      node'.chain.tree.canonicalHeight = (firstNode Blake3.digest).chain.tree.canonicalHeight ∧
      node'.chain.tree.canonicalWork = (firstNode Blake3.digest).chain.tree.canonicalWork ∧
      node'.chain.utxo = (firstNode Blake3.digest).chain.utxo := by
  have hop : BeforeRestart Blake3.digest (some 1000) (freshNode Blake3.digest)
      (.submitBlock (some 1000) none (firstBlock Blake3.digest)) := by
    refine ⟨id, trivial, fun t ht => ⟨t, ht, UInt64.le_refl t⟩, ?_, ?_⟩
    · intro b hb
      cases hb
      decide +kernel
    · intro b hb
      cases hb
      decide +kernel
  have hclock : ∀ _ : Nat, ClockLe (some 1000) (some 2000) := fun _ t ht => by
    cases ht
    exact ⟨2000, rfl, by decide⟩
  refine ⟨by decide +kernel, ?_⟩
  exact restart_recovers freshNode_recovered (by decide +kernel) (.step .start _ hop) hclock easyBits defaultMaxReorgDepth none

end Scytale
