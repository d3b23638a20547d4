/-
  Scytale.Node.Snapshot — importing a UTXO snapshot into a node
  (apps/scytale-node/src/node.rs).

  The root of the entries is compared with the block the snapshot names, if that block is
  stored, and with nothing otherwise; the canonical tip is not looked at.
  - `applySnapshot_ok`: what an accepted snapshot passed, and the node it leaves.
  - `snapshot_sound_iff`: an accepted snapshot leaves the set the tip commits to exactly
    when the named block commits to the root the tip commits to, or, if it is not stored,
    the entries have that root.
-/
import Scytale.Hex
import Scytale.Node.Submit
import Scytale.Storage.Snapshot

namespace Scytale

open Lib

/-- `UtxoWireEntryDto`, its texts in UTF-8. -/
structure UtxoWireEntryDto where
  txidHex : Bytes
  index : UInt32
  valueQuanta : UInt64
  lockingScriptHex : Bytes
  deriving DecidableEq

/-- What `apply_snapshot` formats. -/
inductive SnapshotError where
  | blockHash (e : PrimitiveError)
  | txid (e : PrimitiveError)
  | lockingScript (e : PrimitiveError)
  | rootMismatch (block expected calculated : Hash256)
  | missingBlock (block : Hash256)
  | storage (e : StorageError)
  | utxo (e : UtxoError)
  deriving DecidableEq

/-- The entries as the node stores them: from height 0, and of no coinbase. -/
def parseEntries : List UtxoWireEntryDto → Except SnapshotError (List (OutPoint × UtxoEntry))
  | [] => .ok []
  | e :: es =>
    match Hash256.fromStr e.txidHex with
    | .error err => .error (.txid err)
    | .ok txid =>
      match fromHex e.lockingScriptHex with
      | .error err => .error (.lockingScript err)
      | .ok lockingCondition =>
        match parseEntries es with
        | .error err => .error err
        | .ok rest => .ok ((⟨txid, e.index⟩, ⟨⟨e.valueQuanta, lockingCondition⟩, 0, false⟩) :: rest)

section
variable (H : Hasher)

/-- The named block against the root of the entries; the height the snapshot is given. -/
def snapshotHeight (node : Node) (blockHash calculatedRoot : Hash256) : Except SnapshotError UInt64 :=
  match node.storage.getBlock blockHash with
  | .error e => .error (.storage e)
  | .ok (some block) =>
    if block.header.utxoRoot ≠ calculatedRoot then
      .error (.rootMismatch blockHash block.header.utxoRoot calculatedRoot)
    else .ok (((node.chain.tree.getNode blockHash).map (·.height)).getD 0)
  | .ok none => if node.chain.tree.canonicalHeight > 0 then .error (.missingBlock blockHash) else .ok 0

def applySnapshot (fault : Option StorageError) (node : Node) (blockHashHex : Bytes) (entries : List UtxoWireEntryDto) :
    Node × Except SnapshotError Nat :=
  match Hash256.fromStr blockHashHex with
  | .error e => (node, .error (.blockHash e))
  | .ok blockHash =>
    match parseEntries entries with
    | .error e => (node, .error e)
    | .ok parsed =>
      let snapshotEntries := StorageEngine.sortEntries parsed
      let calculatedRoot := StorageEngine.entriesRoot H parsed
      match snapshotHeight node blockHash calculatedRoot with
      | .error e => (node, .error e)
      | .ok height =>
        match writeTx fault (node.storage.applyUtxoSnapshot H ⟨height, blockHash, calculatedRoot, snapshotEntries⟩) with
        | .error e => (node, .error (.storage e))
        | .ok db =>
          -- the set in memory is built anew, and stays as far as it got
          match UtxoSet.insertAll UtxoSet.new snapshotEntries with
          | (utxo, .error e) => ({ node with chain := { node.chain with utxo := utxo }, storage := db }, .error (.utxo e))
          | (utxo, .ok ()) => (⟨{ node.chain with utxo := utxo }, db, Mempool.new⟩, .ok entries.length)

end

variable {H : Hasher}

/-! ## What an accepted snapshot leaves -/

/-- The checks an accepted snapshot passed, and the node it leaves. -/
theorem applySnapshot_ok {fault : Option StorageError} {node node' : Node} {hex : Bytes} {entries : List UtxoWireEntryDto}
    {n : Nat} (h : applySnapshot H fault node hex entries = (node', .ok n)) :
    ∃ blockHash parsed height db utxo, Hash256.fromStr hex = .ok blockHash ∧ parseEntries entries = .ok parsed ∧
      snapshotHeight node blockHash (StorageEngine.entriesRoot H parsed) = .ok height ∧
      node.storage.applyUtxoSnapshot H
        ⟨height, blockHash, StorageEngine.entriesRoot H parsed, StorageEngine.sortEntries parsed⟩ = .ok db ∧
      UtxoSet.insertAll UtxoSet.new (StorageEngine.sortEntries parsed) = (utxo, .ok ()) ∧
      node' = ⟨{ node.chain with utxo := utxo }, db, Mempool.new⟩ := by
  unfold applySnapshot at h
  split at h
  · cases h
  · rename_i blockHash hhash
    split at h
    · cases h
    · rename_i parsed hparsed
      simp only at h
      split at h
      · cases h
      · rename_i height hheight
        split at h
        · cases h
        · rename_i db hdb
          split at h
          · cases h
          · rename_i utxo hutxo
            cases h
            exact ⟨blockHash, parsed, height, db, utxo, hhash, hparsed, hheight, writeTx_ok hdb, hutxo, rfl⟩

/-- Distinct entries in order are the rows of the set they make up. -/
theorem insertAll_new_rows {rows : List (OutPoint × UtxoEntry)} {s : UtxoSet}
    (h : UtxoSet.insertAll UtxoSet.new rows = (s, .ok ())) (hsorted : rows.Pairwise fun a b => OutPoint.le a.1 b.1) :
    s.entries.toList = rows := by
  obtain ⟨hnd, -, hin, hout⟩ := UtxoSet.insertAll_ok h
  have hperm : s.entries.toList.Perm rows := by
    refine (List.perm_ext_iff_of_nodup (Table.nodup_toList _) (List.Nodup.of_map _ hnd)).mpr ?_
    rintro ⟨o, e⟩
    rw [Table.mem_toList]
    constructor
    · intro hget
      by_cases hm : o ∈ rows.map (·.1)
      · obtain ⟨p, hp, rfl⟩ := List.mem_map.mp hm
        rw [hin p hp] at hget
        cases hget
        exact hp
      · have := hout o hm
        rw [hget, UtxoSet.new, Table.get_empty] at this
        cases this
    · exact fun hm => hin (o, e) hm
  exact UtxoSet.eq_toList_of_perm hperm hsorted

theorem accepted_root {parsed : List (OutPoint × UtxoEntry)} {utxo : UtxoSet}
    (h : UtxoSet.insertAll UtxoSet.new (StorageEngine.sortEntries parsed) = (utxo, .ok ())) :
    utxo.computeUtxoRoot H = StorageEngine.entriesRoot H parsed := by
  rw [UtxoSet.computeUtxoRoot, insertAll_new_rows h (StorageEngine.sortEntries_sorted parsed)]
  rfl

/-! ## The set the tip commits to -/

/-- The root of the active set is the one in the tip's header, and the storage has the same
    tip. -/
def SnapshotSound (H : Hasher) (node : Node) : Prop :=
  (node.chain.tree.getNode node.chain.tree.canonicalTip).map (·.block.header.utxoRoot) =
      some (node.chain.utxo.computeUtxoRoot H) ∧
    node.storage.getCanonicalTip.map (·.1) = some node.chain.tree.canonicalTip

instance (H : Hasher) (node : Node) : Decidable (SnapshotSound H node) :=
  inferInstanceAs (Decidable (_ ∧ _))

/-- The tip commits to the root the named block commits to or, if that is not stored, to
    the root of the entries; and the storage has the same tip. -/
def SnapshotFits (H : Hasher) (node : Node) (blockHash : Hash256) (parsed : List (OutPoint × UtxoEntry)) : Prop :=
  (node.chain.tree.getNode node.chain.tree.canonicalTip).map (·.block.header.utxoRoot) =
      some (match node.storage.blocks[blockHash]? with
        | some block => block.header.utxoRoot
        | none => StorageEngine.entriesRoot H parsed) ∧
    node.storage.getCanonicalTip.map (·.1) = some node.chain.tree.canonicalTip

theorem snapshotHeight_root {node : Node} {blockHash root : Hash256} {height : UInt64}
    (h : snapshotHeight node blockHash root = .ok height) :
    (match node.storage.blocks[blockHash]? with
      | some block => block.header.utxoRoot
      | none => root) = root := by
  unfold snapshotHeight StorageEngine.getBlock at h
  cases hb : node.storage.blocks[blockHash]? with
  | none => rfl
  | some block =>
    rw [hb] at h
    by_cases hd : block.decodable = true
    · simp only [hd, if_true] at h
      split at h
      · cases h
      · rename_i hroot
        exact not_not.mp hroot
    · simp only [hd] at h
      cases h

/-- For every node and every snapshot it accepts. -/
theorem snapshot_sound_iff {fault : Option StorageError} {node node' : Node} {hex : Bytes}
    {entries : List UtxoWireEntryDto} {n : Nat} {blockHash : Hash256} {parsed : List (OutPoint × UtxoEntry)}
    (h : applySnapshot H fault node hex entries = (node', .ok n)) (hhash : Hash256.fromStr hex = .ok blockHash)
    (hparsed : parseEntries entries = .ok parsed) : SnapshotSound H node' ↔ SnapshotFits H node blockHash parsed := by
  obtain ⟨_, _, height, db, utxo, hhash', hparsed', hheight, hdb, hutxo, rfl⟩ := applySnapshot_ok h
  rw [hhash] at hhash'
  cases hhash'
  rw [hparsed] at hparsed'
  cases hparsed'
  obtain ⟨-, rfl⟩ := StorageEngine.applyUtxoSnapshot_ok hdb
  rw [SnapshotSound, SnapshotFits, snapshotHeight_root hheight, ← accepted_root (H := H) hutxo]
  rfl

/-- A row on the wire. -/
def wireEntry (o : OutPoint) (out : TxOut) : UtxoWireEntryDto :=
  ⟨toHex o.txid.bytes, o.index, out.value, toHex out.lockingCondition⟩

/-- The unspent outputs of a node, on the wire. -/
def wireEntries (node : Node) : List UtxoWireEntryDto :=
  node.chain.utxo.entries.toList.map fun p => wireEntry p.1 p.2.output

set_option maxRecDepth 10000 in
/-- A fresh node takes its own set. -/
theorem snapshot_sound_genesis : let H := Blake3.digest
    let node := freshNode H
    ∃ node' parsed, applySnapshot H none node (toHex node.chain.tree.canonicalTip.bytes) (wireEntries node) =
        (node', .ok 2) ∧ parseEntries (wireEntries node) = .ok parsed ∧
      (SnapshotSound H node' ↔ SnapshotFits H node node.chain.tree.canonicalTip parsed) := by
  intro H node
  have hok : (applySnapshot H none node (toHex node.chain.tree.canonicalTip.bytes) (wireEntries node)).2 = .ok 2 := by
    decide +kernel
  have hhash : Hash256.fromStr (toHex node.chain.tree.canonicalTip.bytes) = .ok node.chain.tree.canonicalTip := by
    decide +kernel
  have hparsed : (parseEntries (wireEntries node)).isOk = true := by decide +kernel
  cases hp : parseEntries (wireEntries node) with
  | error e =>
    rw [hp] at hparsed
    cases hparsed
  | ok parsed =>
    have hsplit : applySnapshot H none node (toHex node.chain.tree.canonicalTip.bytes) (wireEntries node) =
        ((applySnapshot H none node (toHex node.chain.tree.canonicalTip.bytes) (wireEntries node)).1, .ok 2) :=
      Prod.ext rfl hok
    exact ⟨_, parsed, hsplit, rfl, snapshot_sound_iff hsplit hhash hp⟩

set_option maxRecDepth 10000 in
/-- A fresh node takes a snapshot of a block it has never heard of, and with it whatever
    outputs the peer sent. -/
theorem snapshot_of_unknown_block : let H := Blake3.digest
    let node := freshNode H
    let unknown : Hash256 := ⟨List.replicate 32 7, rfl⟩
    let r := applySnapshot H none node (toHex unknown.bytes) [wireEntry ⟨unknown, 0⟩ ⟨2100000000000000, [0x51]⟩]
    r.2 = .ok 1 ∧ ¬SnapshotSound H r.1 := by decide +kernel

end Scytale
