/-
  Scytale.Node.Atomicity — what an operation that fails leaves of the node
  (apps/scytale-node/src/node.rs).

  - `submission_error_atomic`: a submission that fails, wherever it does, leaves the tip,
    the set, the storage and the pool as they were. All it can leave is in the tree: a
    block recorded as invalid, or one stored beside the tip.
  - `snapshot_atomic_iff`: an import that fails leaves table, set and pool as they were
    unless it came as far as replacing the table and its entries name an outpoint twice.
-/
import Scytale.Node.Run

namespace Scytale

open Lib

variable {H : Hasher} {eng : Engines}

/-! ## Submissions -/

/-- The parts of a node that a failed submission must not touch. -/
structure SameView (node node' : Node) : Prop where
  tip : node'.chain.tree.canonicalTip = node.chain.tree.canonicalTip
  utxo : node'.chain.utxo = node.chain.utxo
  storage : node'.storage = node.storage
  mempool : node'.mempool = node.mempool

instance (node node' : Node) : Decidable (SameView node node') :=
  decidable_of_iff (node'.chain.tree.canonicalTip = node.chain.tree.canonicalTip ∧ node'.chain.utxo = node.chain.utxo ∧
      node'.storage = node.storage ∧ node'.mempool = node.mempool)
    ⟨fun h => ⟨h.1, h.2.1, h.2.2.1, h.2.2.2⟩, fun h => ⟨h.tip, h.utxo, h.storage, h.mempool⟩⟩

/-- A call on the tree that fails moves neither the tip nor the set. -/
theorem Outcome.error_unmoved {v : Verifier} {now : Option UInt64} {st chain : ChainState} {b : Block} {e : ChainError}
    (o : Outcome H v now st b (chain, .error e)) :
    chain.tree.canonicalTip = st.tree.canonicalTip ∧ chain.utxo = st.utxo := by
  cases o with
  | refused => exact ⟨rfl, rfl⟩
  | marked hs => exact ⟨ChainTree.markAll_tip hs st.tree, rfl⟩
  | deep => exact ⟨rfl, rfl⟩

/-- For every node, block, clock and fault of the database. -/
theorem submission_error_atomic {now : Option UInt64} {fault : Option StorageError} {node : Node} {b : Block}
    {e : NodeError} (h : (submitExternalBlock H eng now fault node b).2 = .error e) :
    SameView node (submitExternalBlock H eng now fault node b).1 := by
  have o := submit_outcome H eng now fault node b
  generalize submitExternalBlock H eng now fault node b = r at o h
  cases o with
  | flagged | panicked => exact ⟨rfl, rfl, rfl, rfl⟩
  | rejected => exact ⟨rfl, rfl, rfl, rfl⟩
  | refused chain e _ _ hproc =>
    have o := process_outcome H (nodeBlockVerifier H eng) now node.chain b
    rw [hproc] at o
    exact ⟨o.error_unmoved.1, o.error_unmoved.2, rfl, rfl⟩
  | aside => cases h
  | unstored => exact ⟨rfl, rfl, rfl, rfl⟩
  | moved => cases h

set_option maxRecDepth 10000 in
/-- The tip moved in memory, and the database failed. -/
theorem submission_error_atomic_fault : let H := Blake3.digest
    SameView (freshNode H) (submitExternalBlock H acceptAll (some 1000) (some .serialization) (freshNode H) (firstBlock H)).1 :=
  submission_error_atomic (e := .storage .serialization) (by decide +kernel)

/-! ## Imports of snapshots -/

/-- What an import that fails should leave as it was. -/
def Untouched (node node' : Node) : Prop :=
  node'.storage.utxos = node.storage.utxos ∧ node'.chain.utxo = node.chain.utxo ∧ node'.mempool = node.mempool

instance (node node' : Node) : Decidable (Untouched node node') := inferInstanceAs (Decidable (_ ∧ _ ∧ _))

/-- If the import fails, table, set and pool are as before. -/
def SnapshotAtomic (H : Hasher) (fault : Option StorageError) (node : Node) (hex : Bytes)
    (entries : List UtxoWireEntryDto) : Prop :=
  ∀ e, (applySnapshot H fault node hex entries).2 = .error e → Untouched node (applySnapshot H fault node hex entries).1

/-- The import comes as far as replacing the table: the texts parse, the named block is not
    against the root of the entries, every entry can be encoded, the database works. -/
structure Replaces (H : Hasher) (fault : Option StorageError) (node : Node) (hex : Bytes)
    (entries : List UtxoWireEntryDto) (parsed : List (OutPoint × UtxoEntry)) : Prop where
  named : ∃ blockHash height, Hash256.fromStr hex = .ok blockHash ∧
    snapshotHeight node blockHash (StorageEngine.entriesRoot H parsed) = .ok height
  parses : parseEntries entries = .ok parsed
  encodable : (StorageEngine.sortEntries parsed).all (fun p => p.2.encodable) = true
  no_fault : fault = none

/-- The table already holds what the import writes, and the set what it loads before it
    meets an outpoint again. -/
def AlreadyHeld (node : Node) (parsed : List (OutPoint × UtxoEntry)) : Prop :=
  node.storage.utxos = Table.insertAll ∅ (StorageEngine.sortEntries parsed) ∧
    node.chain.utxo = (UtxoSet.insertAll UtxoSet.new (StorageEngine.sortEntries parsed)).1

theorem sortEntries_idem (entries : List (OutPoint × UtxoEntry)) :
    StorageEngine.sortEntries (StorageEngine.sortEntries entries) = StorageEngine.sortEntries entries :=
  List.Pairwise.insertionSort_eq (StorageEngine.sortEntries_sorted entries)

/-- The root was computed from the same entries, so storage does not refuse it. -/
theorem applyUtxoSnapshot_sorted (db : StorageEngine) (height : UInt64) (blockHash : Hash256)
    (parsed : List (OutPoint × UtxoEntry)) : db.applyUtxoSnapshot H
      ⟨height, blockHash, StorageEngine.entriesRoot H parsed, StorageEngine.sortEntries parsed⟩ =
    if (StorageEngine.sortEntries parsed).all (fun p => p.2.encodable) = true then
      .ok { db with utxos := Table.insertAll ∅ (StorageEngine.sortEntries parsed) }
    else .error .serialization := by
  have hroot : StorageEngine.entriesRoot H (StorageEngine.sortEntries parsed) = StorageEngine.entriesRoot H parsed := by
    rw [StorageEngine.entriesRoot, sortEntries_idem, StorageEngine.entriesRoot]
  simp only [StorageEngine.applyUtxoSnapshot, hroot, sortEntries_idem, ne_eq, not_true_eq_false, if_false]
  cases (StorageEngine.sortEntries parsed).all (fun p => p.2.encodable) <;> rfl

section
variable {fault : Option StorageError} {node : Node} {hex : Bytes} {entries : List UtxoWireEntryDto}
  {parsed : List (OutPoint × UtxoEntry)}

/-- From the replacement on. -/
theorem Replaces.applySnapshot_eq (h : Replaces H fault node hex entries parsed) :
    applySnapshot H fault node hex entries =
      let db := { node.storage with utxos := Table.insertAll ∅ (StorageEngine.sortEntries parsed) }
      match UtxoSet.insertAll UtxoSet.new (StorageEngine.sortEntries parsed) with
      | (utxo, .error e) => ({ node with chain := { node.chain with utxo := utxo }, storage := db }, .error (.utxo e))
      | (utxo, .ok ()) => (⟨{ node.chain with utxo := utxo }, db, Mempool.new⟩, .ok entries.length) := by
  obtain ⟨blockHash, height, hhash, hheight⟩ := h.named
  cases hins : UtxoSet.insertAll UtxoSet.new (StorageEngine.sortEntries parsed) with
  | mk utxo r =>
    cases r with
    | error e =>
      simp only [applySnapshot, hhash, h.parses, hheight, h.no_fault, writeTx, applyUtxoSnapshot_sorted, h.encodable,
        if_true, hins]
    | ok =>
      simp only [applySnapshot, hhash, h.parses, hheight, h.no_fault, writeTx, applyUtxoSnapshot_sorted, h.encodable,
        if_true, hins]

/-- Short of it nothing has changed. -/
theorem applySnapshot_early (h : ∀ parsed, ¬Replaces H fault node hex entries parsed) :
    ∃ e, applySnapshot H fault node hex entries = (node, .error e) := by
  unfold applySnapshot
  cases hhash : Hash256.fromStr hex with
  | error e => exact ⟨_, rfl⟩
  | ok blockHash =>
    cases hparsed : parseEntries entries with
    | error e => exact ⟨_, rfl⟩
    | ok parsed =>
      cases hheight : snapshotHeight node blockHash (StorageEngine.entriesRoot H parsed) with
      | error e => exact ⟨e, by simp only [hheight]⟩
      | ok height =>
        cases fault with
        | some e => exact ⟨.storage e, by simp only [hheight, writeTx]⟩
        | none =>
          cases henc : (StorageEngine.sortEntries parsed).all (fun p => p.2.encodable) with
          | true => exact absurd ⟨⟨blockHash, height, hhash, hheight⟩, hparsed, henc, rfl⟩ (h parsed)
          | false =>
            refine ⟨.storage .serialization, ?_⟩
            simp only [hheight, writeTx, applyUtxoSnapshot_sorted, henc, Bool.false_eq_true, if_false]

theorem insertAll_sorted_ok_iff (parsed : List (OutPoint × UtxoEntry)) :
    (UtxoSet.insertAll UtxoSet.new (StorageEngine.sortEntries parsed)).2 = .ok () ↔ (parsed.map (·.1)).Nodup := by
  have hperm : ((StorageEngine.sortEntries parsed).map (·.1)).Perm (parsed.map (·.1)) :=
    (List.perm_insertionSort _ parsed).map _
  rw [← hperm.nodup_iff]
  constructor
  · intro h
    have hsplit : UtxoSet.insertAll UtxoSet.new (StorageEngine.sortEntries parsed) =
      ((UtxoSet.insertAll UtxoSet.new (StorageEngine.sortEntries parsed)).1, .ok ()) := Prod.ext rfl h
    exact (UtxoSet.insertAll_ok hsplit).1
  · intro h
    obtain ⟨s', hs'⟩ := UtxoSet.insertAll_of_fresh (s := UtxoSet.new) h fun p _ => Table.get_empty p.1
    rw [hs']

end

/-- For every node, named block, list of entries and fault of the database. -/
theorem snapshot_atomic_iff (H : Hasher) (fault : Option StorageError) (node : Node) (hex : Bytes)
    (entries : List UtxoWireEntryDto) : SnapshotAtomic H fault node hex entries ↔
      ∀ parsed, Replaces H fault node hex entries parsed → (parsed.map (·.1)).Nodup ∨ AlreadyHeld node parsed := by
  constructor
  · intro h parsed hrep
    rw [← insertAll_sorted_ok_iff]
    have heq := hrep.applySnapshot_eq
    cases hins : (UtxoSet.insertAll UtxoSet.new (StorageEngine.sortEntries parsed)).2 with
    | ok => exact .inl rfl
    | error e =>
      have hsplit : UtxoSet.insertAll UtxoSet.new (StorageEngine.sortEntries parsed) =
        ((UtxoSet.insertAll UtxoSet.new (StorageEngine.sortEntries parsed)).1, .error e) := Prod.ext rfl hins
      rw [hsplit] at heq
      obtain ⟨htable, hset, -⟩ := h (.utxo e) (by rw [heq])
      rw [heq] at htable hset
      exact .inr ⟨htable.symm, hset.symm⟩
  · intro h e he
    by_cases hrep : ∃ parsed, Replaces H fault node hex entries parsed
    · obtain ⟨parsed, hrep⟩ := hrep
      have heq := hrep.applySnapshot_eq
      cases hins : UtxoSet.insertAll UtxoSet.new (StorageEngine.sortEntries parsed) with
      | mk utxo r =>
        rw [hins] at heq
        cases r with
        | ok =>
          rw [heq] at he
          cases he
        | error err =>
          rcases h parsed hrep with hnd | ⟨htable, hset⟩
          · rw [← insertAll_sorted_ok_iff, hins] at hnd
            cases hnd
          · rw [hins] at hset
            rw [heq]
            exact ⟨htable.symm, hset.symm, rfl⟩
    · obtain ⟨e', heq⟩ := applySnapshot_early (not_exists.mp hrep)
      rw [heq]
      exact ⟨rfl, rfl, rfl⟩

/-- The outputs of a node with its last one repeated, on the wire. -/
def repeatedEntries (node : Node) : List UtxoWireEntryDto :=
  wireEntries node ++ (wireEntries node).getLast?.toList

set_option maxRecDepth 10000 in
/-- Of three outputs the last is paired with itself, so repeating it keeps the root the
    tip's block commits to. The import fails, and the table no longer says that a coinbase
    created the output. -/
theorem repeated_output_not_atomic : let node := firstNode Blake3.digest
    ¬SnapshotAtomic Blake3.digest none node (toHex node.chain.tree.canonicalTip.bytes) (repeatedEntries node) := by
  intro node hatomic
  let r := applySnapshot Blake3.digest none node (toHex node.chain.tree.canonicalTip.bytes) (repeatedEntries node)
  have hrun : r.2.isOk = false ∧ ¬Untouched node r.1 := by decide +kernel
  obtain ⟨hfails, hchanged⟩ := hrun
  cases hr : r.2 with
  | ok n =>
    rw [hr] at hfails
    cases hfails
  | error e => exact hchanged (hatomic e hr)

end Scytale
