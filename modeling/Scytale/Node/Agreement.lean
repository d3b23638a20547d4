/-
  Scytale.Node.Agreement — the set in memory and the table on disk
  (apps/scytale-node/src/node.rs, crates/scytale-storage/src/engine.rs).

  Memory replays the path to the new tip; the storage takes blocks back by their undo
  records and writes the changes of the new ones.
  - `agrees_follower`: the two keep together, as long as no block that is taken back spends
    its own outputs.
  - `memory_disk_agreement`: in every run of submissions without such a reorganisation, the
    stored tip and the stored outputs are those in memory.
  - `reorg_revives_spent_output`: with one, an output that the disconnected block created
    and spent is unspent on disk.
-/
import Scytale.Node.Follow
import Scytale.Storage.Delta

namespace Scytale

open Lib

variable {H : Hasher} {eng : Engines} {genesis : Block}

/-! ## Tables and paths -/

/-- The table holds the set the path leads to, and for each of its blocks there is the
    record of what it changed. -/
structure Agrees (H : Hasher) (db : StorageEngine) (path : List BlockNode) : Prop where
  utxos : ∀ {s}, replay H UtxoSet.new path = .ok s → db.utxos = s.entries
  undo : ∀ {before after n s}, path = before ++ n :: after → replay H UtxoSet.new before = .ok s →
    db.blockUndo[n.hash]? = some (delta H n.height (s.entries, Undo.empty) n.block.transactions).2

theorem agrees_follower (H : Hasher) :
    Follower H (Replays H) (fun n => OwnFree H n.block.transactions) (Agrees H) where
  before := Replays.before
  setTip := fun _ _ h => ⟨h.utxos, h.undo⟩
  connect := by
    intro db db' path n hpath h hc
    obtain ⟨s, s', fees, hs, hs', hap⟩ := hpath.last
    obtain ⟨d, index, -, -, rfl⟩ := StorageEngine.connectBlock_ok hc
    have hsame := h.utxos hs
    constructor
    · intro s₁ hs₁
      rw [hs'] at hs₁
      cases hs₁
      show (delta H n.height (db.utxos, Undo.empty) n.block.transactions).1 = s'.entries
      rw [hsame]
      exact (applyBlock_delta hap).1
    · intro before after m s₁ hsplit hs₁
      show (db.blockUndo.insert _ (delta H n.height (db.utxos, Undo.empty) n.block.transactions).2)[m.hash]? = _
      -- either the new block, or one the path had before
      rcases Ancestry.concat_cut hsplit with ⟨rfl, rfl⟩ | ⟨rest, rfl⟩
      · rw [hs] at hs₁
        cases hs₁
        rw [hpath.hashed n (by simp), Table.get_insert_self, hsame]
      · rw [Table.get_insert_ne _ _ (hpath.hash_ne (by simp))]
        exact h.undo rfl hs₁
  disconnect := by
    intro db db' path n hpath hfree h hd
    obtain ⟨s, s', fees, hs, hs', hap⟩ := hpath.last
    obtain ⟨undo, hundo, hutxos, -, -, hrest⟩ := StorageEngine.disconnectBlock_ok hd
    have hrecord := h.undo (rfl : path ++ [n] = path ++ n :: []) hs
    rw [hpath.hashed n (by simp), hrecord] at hundo
    cases hundo
    constructor
    · intro s₁ hs₁
      rw [hs] at hs₁
      cases hs₁
      rw [hutxos, h.utxos hs']
      exact (applyBlock_delta hap).2 hfree
    · intro before after m s₁ hsplit hs₁
      rw [hrest, Table.get_erase, if_neg (hpath.hash_ne (by rw [hsplit]; simp))]
      have hsplit' : path ++ [n] = before ++ m :: (after ++ [n]) := by
        rw [hsplit, List.append_assoc, List.cons_append]
      exact h.undo hsplit' hs₁

/-! ## Runs -/

/-- Submissions, none of which takes a block off the path that spends its own outputs. -/
def SubmitsOwnFree (H : Hasher) : Node → NodeOp → Prop
  | node, .submitBlock _ _ b => ∀ m ∈ node.chain.tree.leaving H b, OwnFree H m.block.transactions
  | _, _ => False

theorem SubmitsOwnFree.isSubmit {node : Node} {op : NodeOp} (h : SubmitsOwnFree H node op) : op.isSubmit := by
  cases op with
  | submitBlock => trivial
  | mineBlock | submitTransaction | applySnapshot => exact h

theorem agrees_empty (H : Hasher) : Agrees H StorageEngine.empty [] := by
  constructor
  · intro s hs
    cases hs
    rfl
  · intro before after n s hsplit
    simp at hsplit

/-- After every call of every such run from a fresh node, the stored tip is the tip in
    memory and the table of unspent outputs holds exactly the set in memory. -/
theorem memory_disk_agreement {bits : UInt32} {depth : UInt64} {fault : Option StorageError} {init node : Node}
    (hinit : recoverFresh H bits depth fault = .ok init) (hr : NodeReach H eng (SubmitsOwnFree H) init node) :
    node.storage.getCanonicalTip = some (node.chain.tree.canonicalTip, node.chain.tree.canonicalHeight) ∧
      node.storage.utxos = node.chain.utxo.entries := by
  have hsnap : ∀ node op, SubmitsOwnFree H node op → ¬op.isSnapshot := fun _ _ h => h.isSubmit.not_snapshot
  have hheight : ∀ node op, SubmitsOwnFree H node op → op.AtNextHeight node := by
    intro node op h
    cases op with
    | submitBlock => trivial
    | mineBlock | submitTransaction | applySnapshot => exact absurd h id
  have hloose : ∀ node op b, SubmitsOwnFree H node op → op.block H = some b →
      ∀ m ∈ node.chain.tree.leaving H b, OwnFree H m.block.transactions := by
    intro node op b h hb
    cases op with
    | submitBlock =>
      cases hb
      exact h
    | mineBlock | submitTransaction | applySnapshot => exact absurd h id
  obtain ⟨hagrees, htip⟩ := runs_follow (agrees_follower H) hsnap hheight hloose hinit (agrees_empty H)
    (fun node hn => (runs_stateInv hsnap hinit hn).replays) hr
  exact ⟨htip, hagrees.utxos (runs_stateInv hsnap hinit hr).replayed⟩

set_option maxRecDepth 10000 in
/-- The node after its first block. -/
theorem memory_disk_agreement_first : (firstNode Blake3.digest).chain.tree.canonicalTip =
      (firstBlock Blake3.digest).header.hash Blake3.digest ∧
    (firstNode Blake3.digest).storage.getCanonicalTip =
      some ((firstNode Blake3.digest).chain.tree.canonicalTip, (firstNode Blake3.digest).chain.tree.canonicalHeight) ∧
    (firstNode Blake3.digest).storage.utxos = (firstNode Blake3.digest).chain.utxo.entries := by
  have hop : SubmitsOwnFree Blake3.digest (freshNode Blake3.digest)
      (.submitBlock (some 1000) none (firstBlock Blake3.digest)) := by
    have hnone : (freshNode Blake3.digest).chain.tree.leaving Blake3.digest (firstBlock Blake3.digest) = [] := by
      decide +kernel
    intro m hm
    rw [hnone] at hm
    cases hm
  have hreach : NodeReach Blake3.digest acceptAll (SubmitsOwnFree Blake3.digest) (freshNode Blake3.digest)
      (firstNode Blake3.digest) := .step .start _ hop
  exact ⟨by decide +kernel, memory_disk_agreement freshNode_recovered hreach⟩

/-! ## A block that spends its own coinbase, taken back -/

/-- A block that pays its reward out and spends it. -/
def ownSpendingBlock (H : Hasher) : Block :=
  mined H (freshNode H).chain.tree.canonicalTip (freshNode H).chain.utxo 1 60 [sampleCoinbase, sampleSpend H]

/-- A block beside it, and one on top of that. -/
def rivalBlock (H : Hasher) : Block :=
  payingBlock H (freshNode H).chain.tree.canonicalTip (freshNode H).chain.utxo 1 60 [0x52]

def rivalChild (H : Hasher) : Block :=
  payingBlock H ((rivalBlock H).header.hash H)
    (submitExternalBlock H acceptAll (some 1000) none (freshNode H) (rivalBlock H)).1.chain.utxo 2 120 [0x52]

/-- The node before the last of the three blocks, and after it. -/
def rivalNode (H : Hasher) : Node :=
  (submitExternalBlock H acceptAll (some 1000) none
    (submitExternalBlock H acceptAll (some 1000) none (freshNode H) (ownSpendingBlock H)).1 (rivalBlock H)).1

def revivedNode (H : Hasher) : Node := (submitExternalBlock H acceptAll (some 1000) none (rivalNode H) (rivalChild H)).1

theorem revivedNode_reached : NodeReach H acceptAll (fun _ op => op.isSubmit) (freshNode H) (revivedNode H) :=
  .step (.step (.step .start (.submitBlock (some 1000) none (ownSpendingBlock H)) trivial)
    (.submitBlock (some 1000) none (rivalBlock H)) trivial) (.submitBlock (some 1000) none (rivalChild H)) trivial

set_option maxRecDepth 10000 in
/-- Three successful calls on a fresh node: the coinbase's output, spent in its own block,
    is unspent on disk and not in memory. -/
theorem reorg_revives_spent_output :
    NodeReach Blake3.digest acceptAll (fun _ op => op.isSubmit) (freshNode Blake3.digest) (revivedNode Blake3.digest) ∧
      (submitExternalBlock Blake3.digest acceptAll (some 1000) none (rivalNode Blake3.digest)
        (rivalChild Blake3.digest)).2 = .ok true ∧
      (revivedNode Blake3.digest).storage.utxos ≠ (revivedNode Blake3.digest).chain.utxo.entries := by
  have hrun : (submitExternalBlock Blake3.digest acceptAll (some 1000) none (rivalNode Blake3.digest)
        (rivalChild Blake3.digest)).2 = .ok true ∧
      ((revivedNode Blake3.digest).storage.utxos[(⟨sampleCoinbase.txid Blake3.digest, 0⟩ : OutPoint)]?).isSome = true ∧
      ((revivedNode Blake3.digest).chain.utxo.entries[(⟨sampleCoinbase.txid Blake3.digest, 0⟩ : OutPoint)]?).isSome =
        false := by decide +kernel
  refine ⟨revivedNode_reached, hrun.1, fun h => ?_⟩
  have hdisk := hrun.2.1
  rw [h, hrun.2.2] at hdisk
  cases hdisk

end Scytale
