/-
  Scytale.Storage.Snapshot — reading the unspent outputs off the storage, and replacing
  them by a snapshot (crates/scytale-storage/src/engine.rs).

  redb lists a table by the bytes of its keys. The key of an outpoint is its txid and then
  its index, little-endian, so the rows of one transaction do not come in the order of
  their indices.
  - `storage_root_iff`: the storage's root is that of the set it loads exactly when the
    indices of each transaction's outputs are ordered as their bytes are.
  - `snapshot_round_trip_iff`: the same condition decides whether an exported snapshot can
    be imported again; export lists the rows by key, and import sorts them by outpoint.
  - `snapshot_binds_outputs`: accepted snapshots of one root leave the same outputs at the
    same outpoints; heights and coinbase flags are not part of the root.
-/
import Scytale.Storage.Engine
import Scytale.Core.UtxoRoot
import Scytale.Core.Codec

namespace Scytale

open Lib

structure UtxoSnapshotDto where
  height : UInt64
  blockHash : Hash256
  utxoRoot : Hash256
  entries : List (OutPoint × UtxoEntry)
  deriving DecidableEq

namespace StorageEngine

/-- The rows of the table, by the bytes of their keys. -/
def utxoRows (db : StorageEngine) : List (OutPoint × UtxoEntry) :=
  db.utxos.toList.insertionSort fun a b => a.1.toFixedBytes ≤ b.1.toFixedBytes

def loadRows : UtxoSet → List (OutPoint × UtxoEntry) → Except StorageError UtxoSet
  | s, [] => .ok s
  | s, (o, e) :: rows =>
    match s.insert o e with
    | .error err => .error (.inconsistentRow err)
    | .ok s => loadRows s rows

def loadEntireUtxoSet (db : StorageEngine) : Except StorageError UtxoSet := loadRows UtxoSet.new db.utxoRows

def getBlock (db : StorageEngine) (hash : Hash256) : Except StorageError (Option Block) :=
  match db.blocks[hash]? with
  | none => .ok none
  | some b => if b.decodable then .ok (some b) else .error .serialization

section
variable (H : Hasher)

def computeUtxoRoot (db : StorageEngine) : Hash256 :=
  UtxoSet.computeUtxoMerkleRoot H (db.utxoRows.map fun p => UtxoSet.computeUtxoLeaf H p.1 p.2.output)

def exportUtxoSnapshot (db : StorageEngine) : UtxoSnapshotDto :=
  let tip := db.getCanonicalTip.getD (Hash256.zero, 0)
  ⟨tip.2, tip.1, computeUtxoRoot H db, db.utxoRows⟩

/-- The entries by outpoint; entries of one outpoint keep their order. -/
def sortEntries (entries : List (OutPoint × UtxoEntry)) : List (OutPoint × UtxoEntry) :=
  entries.insertionSort fun a b => OutPoint.le a.1 b.1

def entriesRoot (entries : List (OutPoint × UtxoEntry)) : Hash256 :=
  UtxoSet.computeUtxoMerkleRoot H ((sortEntries entries).map fun p => UtxoSet.computeUtxoLeaf H p.1 p.2.output)

def applyUtxoSnapshot (db : StorageEngine) (snapshot : UtxoSnapshotDto) : Except StorageError StorageEngine :=
  let calculatedRoot := entriesRoot H snapshot.entries
  if calculatedRoot ≠ snapshot.utxoRoot then .error (.snapshotRootMismatch snapshot.utxoRoot calculatedRoot)
  else if !(snapshot.entries.all fun p => p.2.encodable) then .error .serialization
  else .ok { db with utxos := Table.insertAll ∅ (sortEntries snapshot.entries) }

end

end StorageEngine

/-! ## The order of the rows -/

variable {H : Hasher}

namespace StorageEngine

theorem loadRows_ok {rows : List (OutPoint × UtxoEntry)} : ∀ {s : UtxoSet}, (rows.map (·.1)).Nodup →
    (∀ p ∈ rows, s.entries[p.1]? = none) → loadRows s rows = .ok ⟨Table.insertAll s.entries rows⟩ := by
  induction rows with
  | nil => intro s _ _; rfl
  | cons p rows ih =>
    obtain ⟨o, e⟩ := p
    intro s hnd hfresh
    obtain ⟨ho, hnd⟩ := List.nodup_cons.mp hnd
    have hnone : s.entries.contains o = false :=
      (Table.not_contains_iff _ _).mpr (hfresh (o, e) List.mem_cons_self)
    have hins : s.insert o e = .ok ⟨s.entries.insert o e⟩ := by simp [UtxoSet.insert, hnone]
    simp only [loadRows, hins]
    rw [ih hnd fun q hq => ?_]
    · rfl
    · have hne : o ≠ q.1 := fun h => ho (List.mem_map.mpr ⟨q, hq, h.symm⟩)
      show (s.entries.insert o e)[q.1]? = none
      rw [Table.get_insert_ne _ _ hne]
      exact hfresh q (List.mem_cons_of_mem _ hq)

theorem utxoRows_perm (db : StorageEngine) : db.utxoRows.Perm db.utxos.toList := List.perm_insertionSort _ _

theorem loadEntireUtxoSet_eq (db : StorageEngine) : db.loadEntireUtxoSet = .ok ⟨db.utxos⟩ := by
  have hnd : (db.utxoRows.map (·.1)).Nodup := (db.utxoRows_perm.map _).nodup_iff.mpr (Table.nodup_keys _)
  rw [loadEntireUtxoSet, loadRows_ok (s := UtxoSet.new) hnd fun p _ => Table.get_empty p.1]
  exact congrArg (fun m => Except.ok (UtxoSet.mk m)) (Table.insertAll_perm db.utxoRows_perm)

/-- The outputs of the rows, by the bytes of their keys. -/
def keyRows (db : StorageEngine) : List (OutPoint × TxOut) := db.utxoRows.map fun p => (p.1, p.2.output)

theorem computeUtxoRoot_eq (db : StorageEngine) :
    db.computeUtxoRoot H = UtxoSet.computeUtxoMerkleRoot H (UtxoSet.leaves H db.keyRows) := by
  rw [computeUtxoRoot, UtxoSet.leaves, keyRows, List.map_map]
  rfl

/-- Of two unspent outputs of one transaction, the one of the smaller index has the
    smaller index in bytes, least significant first. -/
def IndexOrdered (db : StorageEngine) : Prop :=
  ∀ p q : OutPoint, db.utxos.contains p = true → db.utxos.contains q = true → p.txid = q.txid → p.index < q.index →
    byteVal (u32le p.index) < byteVal (u32le q.index)

theorem key_le_iff (a b : OutPoint) : a.toFixedBytes ≤ b.toFixedBytes ↔
    byteVal a.txid.bytes * 2 ^ 32 + byteVal (u32le a.index) ≤ byteVal b.txid.bytes * 2 ^ 32 + byteVal (u32le b.index) := by
  have hp : (256 ^ 4 : Nat) = 2 ^ 32 := by norm_num
  rw [bytes_le_iff (by simp), OutPoint.toFixedBytes, OutPoint.toFixedBytes, byteVal_append, byteVal_append, u32le_length,
    u32le_length, hp]

theorem index_bytes_lt (i : UInt32) : byteVal (u32le i) < 2 ^ 32 := by
  have := byteVal_lt (u32le i)
  rwa [u32le_length, show (256 ^ 4 : Nat) = 2 ^ 32 by norm_num] at this

/-- In that case the order of the keys is that of the outpoints. -/
theorem utxoRows_of_indexOrdered {db : StorageEngine} (h : IndexOrdered db) : db.utxoRows = db.utxos.toList := by
  refine List.Pairwise.insertionSort_eq ?_
  refine List.Pairwise.imp_of_mem ?_ (Std.ExtTreeMap.ordered_keys_toList (t := db.utxos))
  intro p q hp hq hlt
  have hstored : ∀ r : OutPoint × UtxoEntry, r ∈ db.utxos.toList → db.utxos.contains r.1 = true := fun r hr =>
    (Table.contains_iff _ _).mpr ⟨r.2, Table.mem_toList.mp hr⟩
  have hp4 := index_bytes_lt p.1.index
  have hq4 := index_bytes_lt q.1.index
  rw [key_le_iff]
  rcases OutPoint.compare_lt_iff.mp hlt with htxid | ⟨htxid, hidx⟩
  · have : (byteVal p.1.txid.bytes + 1) * 2 ^ 32 ≤ byteVal q.1.txid.bytes * 2 ^ 32 := Nat.mul_le_mul_right _ htxid
    omega
  · have := h p.1 q.1 (hstored p hp) (hstored q hq) htxid hidx
    rw [htxid]
    omega

theorem computeUtxoRoot_of_indexOrdered {db : StorageEngine} (h : IndexOrdered db) :
    db.computeUtxoRoot H = UtxoSet.computeUtxoRoot H ⟨db.utxos⟩ := by
  rw [computeUtxoRoot, utxoRows_of_indexOrdered h]
  rfl

/-- Conversely, if the rows come by outpoint, the indices are ordered as their bytes. -/
theorem indexOrdered_of_rows {db : StorageEngine} (h : db.utxoRows.map (·.1) = db.utxos.toList.map (·.1)) :
    IndexOrdered db := by
  intro p q hp hq htxid hidx
  have hkeys : (db.utxos.toList.map (·.1)).Pairwise fun a b => a.toFixedBytes ≤ b.toFixedBytes ∧ compare a b = .lt := by
    refine List.Pairwise.and ?_ ?_
    · rw [← h]
      have : Std.Total (fun a b : OutPoint × UtxoEntry => a.1.toFixedBytes ≤ b.1.toFixedBytes) :=
        ⟨fun a b => by rw [key_le_iff, key_le_iff]; exact Nat.le_total _ _⟩
      have : IsTrans (OutPoint × UtxoEntry) (fun a b => a.1.toFixedBytes ≤ b.1.toFixedBytes) :=
        ⟨fun a b c hab hbc => by rw [key_le_iff] at *; exact Nat.le_trans hab hbc⟩
      exact List.Pairwise.map _ (fun _ _ hab => hab) (List.pairwise_insertionSort _ _)
    · exact List.Pairwise.map _ (fun _ _ hab => hab) (Std.ExtTreeMap.ordered_keys_toList (t := db.utxos))
  have hmem : ∀ o : OutPoint, db.utxos.contains o = true → o ∈ db.utxos.toList.map (·.1) := by
    intro o ho
    obtain ⟨e, he⟩ := (Table.contains_iff _ _).mp ho
    exact List.mem_map.mpr ⟨(o, e), Table.mem_toList.mpr he, rfl⟩
  have hlt : compare p q = .lt := OutPoint.compare_lt_iff.mpr (.inr ⟨htxid, hidx⟩)
  have hne : p ≠ q := by
    rintro rfl
    exact absurd hidx (UInt32.lt_irrefl _)
  let R : OutPoint → OutPoint → Prop := fun a b => (a.toFixedBytes ≤ b.toFixedBytes ∧ compare a b = .lt) ∨
    (b.toFixedBytes ≤ a.toFixedBytes ∧ compare b a = .lt)
  have : Std.Symm R := ⟨fun _ _ hab => hab.symm⟩
  have hrel : R p q := List.Pairwise.forall (R := R) (hkeys.imp Or.inl) (hmem p hp) (hmem q hq) hne
  rcases hrel with ⟨hle, -⟩ | ⟨-, hgt⟩
  · rw [key_le_iff, htxid] at hle
    have hdiff : byteVal (u32le p.index) ≠ byteVal (u32le q.index) := by
      intro he
      rw [u32le_inj (byteVal_inj (by simp) he)] at hidx
      exact absurd hidx (UInt32.lt_irrefl _)
    omega
  · rw [Std.OrientedOrd.eq_swap, hlt] at hgt
    cases hgt

/-- Equal roots have equal rows, so the rows come by outpoint. -/
theorem indexOrdered_of_roots {db : StorageEngine} (hsep : UtxoSet.Separated H db.keyRows (UtxoSet.rows ⟨db.utxos⟩))
    (heq : db.computeUtxoRoot H = UtxoSet.computeUtxoRoot H ⟨db.utxos⟩) : IndexOrdered db := by
  rw [computeUtxoRoot_eq, UtxoSet.computeUtxoRoot_eq] at heq
  have hnd : (db.keyRows.map (·.1)).Nodup := by
    rw [keyRows, List.map_map]
    exact (db.utxoRows_perm.map _).nodup_iff.mpr (Table.nodup_keys _)
  have hrows : db.keyRows = UtxoSet.rows ⟨db.utxos⟩ := by
    rcases UtxoSet.rows_extend hsep heq with he | he
    · exact he.eq_of_nodup (List.Nodup.of_map _ (UtxoSet.nodup_rows _))
    · exact (he.eq_of_nodup (List.Nodup.of_map _ hnd)).symm
  refine indexOrdered_of_rows ?_
  have := congrArg (List.map (·.1)) hrows
  rwa [keyRows, UtxoSet.rows, List.map_map, List.map_map] at this

/-- The root the storage computes is that of the set it loads if the indices of each
    transaction's unspent outputs are ordered as their bytes; and, the digest being sound
    on the two trees, only then. -/
theorem storage_root_iff (H : Hasher) (db : StorageEngine) : ∃ s, db.loadEntireUtxoSet = .ok s ∧
    (IndexOrdered db → db.computeUtxoRoot H = s.computeUtxoRoot H) ∧
    (UtxoSet.Separated H db.keyRows s.rows → db.computeUtxoRoot H = s.computeUtxoRoot H → IndexOrdered db) := by
  refine ⟨⟨db.utxos⟩, loadEntireUtxoSet_eq db, computeUtxoRoot_of_indexOrdered, fun hsep heq => ?_⟩
  exact indexOrdered_of_roots hsep heq

/-- The outputs 1 and 256 of one transaction. -/
def twoOutputs : StorageEngine :=
  { StorageEngine.empty with
    utxos := ((∅ : Table OutPoint UtxoEntry).insert ⟨Hash256.zero, 1⟩ ⟨⟨700, [0x51]⟩, 1, false⟩).insert
      ⟨Hash256.zero, 256⟩ ⟨⟨800, [0x51]⟩, 1, false⟩ }

set_option maxRecDepth 10000 in
/-- The keys put output 256 before output 1. -/
theorem storage_root_differs : twoOutputs.loadEntireUtxoSet = .ok ⟨twoOutputs.utxos⟩ ∧
    twoOutputs.computeUtxoRoot Blake3.digest ≠ UtxoSet.computeUtxoRoot Blake3.digest ⟨twoOutputs.utxos⟩ :=
  ⟨loadEntireUtxoSet_eq _, by decide +kernel⟩

/-! ## The round trip of a snapshot -/

theorem applyUtxoSnapshot_ok {db db' : StorageEngine} {snapshot : UtxoSnapshotDto}
    (h : db.applyUtxoSnapshot H snapshot = .ok db') : entriesRoot H snapshot.entries = snapshot.utxoRoot ∧
      db' = { db with utxos := Table.insertAll ∅ (sortEntries snapshot.entries) } := by
  simp only [applyUtxoSnapshot] at h
  split at h
  · cases h
  · rename_i hroot
    split at h
    · cases h
    · cases h
      exact ⟨not_not.mp hroot, rfl⟩

theorem sortEntries_sorted (entries : List (OutPoint × UtxoEntry)) :
    (sortEntries entries).Pairwise fun a b => OutPoint.le a.1 b.1 := UtxoSet.pairwise_sort entries

/-- The import sorts the exported rows back to the order of the outpoints. -/
theorem sortEntries_utxoRows (db : StorageEngine) : sortEntries db.utxoRows = db.utxos.toList := by
  have hperm : db.utxos.toList.Perm (sortEntries db.utxoRows) :=
    db.utxoRows_perm.symm.trans (List.perm_insertionSort _ _).symm
  exact (UtxoSet.eq_toList_of_perm hperm (sortEntries_sorted _)).symm

/-- Every entry can be encoded, as one read off the table was. -/
def Encoded (db : StorageEngine) : Prop := ∀ p ∈ db.utxoRows, p.2.encodable = true

/-- The snapshot of `s` imports into `t` and leaves the table of `s`. -/
def RoundTrip (H : Hasher) (s t : StorageEngine) : Prop :=
  ∃ t', t.applyUtxoSnapshot H (s.exportUtxoSnapshot H) = .ok t' ∧ t'.utxos = s.utxos

/-- The two roots agree, and the entries can be written again. -/
theorem roundTrip_iff_roots (s t : StorageEngine) :
    RoundTrip H s t ↔ s.computeUtxoRoot H = UtxoSet.computeUtxoRoot H ⟨s.utxos⟩ ∧ Encoded s := by
  have hroot : entriesRoot H s.utxoRows = UtxoSet.computeUtxoRoot H ⟨s.utxos⟩ := by
    rw [entriesRoot, sortEntries_utxoRows]
    rfl
  have htable : Table.insertAll ∅ (sortEntries s.utxoRows) = s.utxos :=
    Table.insertAll_perm ((List.perm_insertionSort _ _).trans s.utxoRows_perm)
  constructor
  · rintro ⟨t', happly, -⟩
    have hchecked := (applyUtxoSnapshot_ok happly).1
    refine ⟨(hroot.symm.trans hchecked).symm, fun p hp => ?_⟩
    by_contra hne
    have hall : (s.exportUtxoSnapshot H).entries.all (fun p => p.2.encodable) = false :=
      List.all_eq_false.mpr ⟨p, hp, hne⟩
    simp only [applyUtxoSnapshot, hchecked, ne_eq, not_true_eq_false, if_false, hall, Bool.not_false, if_true] at happly
    cases happly
  · rintro ⟨hagree, henc⟩
    have hall : s.utxoRows.all (fun p => p.2.encodable) = true := List.all_eq_true.mpr henc
    refine ⟨{ t with utxos := Table.insertAll ∅ (sortEntries s.utxoRows) }, ?_, htable⟩
    simp only [applyUtxoSnapshot, exportUtxoSnapshot, hroot, hagree, hall, ne_eq, not_true_eq_false, if_false,
      Bool.not_true, Bool.false_eq_true]

/-- For every two storages: the trip goes through if the indices of each transaction's
    unspent outputs are ordered as their bytes; and, the digest being sound on the two
    trees, only then. -/
theorem snapshot_round_trip_iff (H : Hasher) (s t : StorageEngine) :
    (IndexOrdered s ∧ Encoded s → RoundTrip H s t) ∧
      (UtxoSet.Separated H s.keyRows (UtxoSet.rows ⟨s.utxos⟩) → RoundTrip H s t → IndexOrdered s ∧ Encoded s) := by
  simp only [roundTrip_iff_roots]
  constructor
  · rintro ⟨hord, henc⟩
    exact ⟨computeUtxoRoot_of_indexOrdered hord, henc⟩
  · rintro hsep ⟨hagree, henc⟩
    exact ⟨indexOrdered_of_roots hsep hagree, henc⟩

set_option maxRecDepth 10000 in
/-- No storage takes the snapshot made of the outputs 1 and 256. -/
theorem exported_snapshot_refused : ¬RoundTrip Blake3.digest twoOutputs StorageEngine.empty := by
  rw [roundTrip_iff_roots]
  rintro ⟨hagree, -⟩
  exact absurd hagree (by decide +kernel)

/-! ## Snapshots of one root -/

/-- The last value written under a key. -/
def lastAt {V : Type} (l : List (OutPoint × V)) (o : OutPoint) : Option V :=
  (l.reverse.find? fun p => p.1 = o).map (·.2)

theorem get_insertAll_lastAt {V : Type} (l : List (OutPoint × V)) (o : OutPoint) :
    (Table.insertAll (∅ : Table OutPoint V) l)[o]? = lastAt l o := by
  induction l using List.reverseRecOn with
  | nil => rfl
  | append_singleton l p ih =>
    have hstep : Table.insertAll (∅ : Table OutPoint V) (l ++ [p]) = (Table.insertAll ∅ l).insert p.1 p.2 := by
      simp [Table.insertAll]
    have hlast : lastAt (l ++ [p]) o = if p.1 = o then some p.2 else lastAt l o := by
      by_cases e : p.1 = o <;> simp [lastAt, e]
    rw [hstep, Table.get_insert, ih, hlast]

theorem lastAt_map {V W : Type} (f : V → W) (l : List (OutPoint × V)) (o : OutPoint) :
    (lastAt l o).map f = lastAt (l.map fun p => (p.1, f p.2)) o := by
  induction l using List.reverseRecOn with
  | nil => rfl
  | append_singleton l p ih =>
    by_cases e : p.1 = o
    · simp [lastAt, e]
    · simpa [lastAt, e] using ih

/-- Rows written behind sorted rows, sorted as well and ending alike, change nothing. -/
theorem lastAt_extends {V : Type} {l m : List (OutPoint × V)} (h : Merkle.Extends l m)
    (hm : m.Pairwise fun a b => OutPoint.le a.1 b.1) (o : OutPoint) : lastAt l o = lastAt m o := by
  obtain ⟨e, rfl⟩ := h.isPrefix
  cases hlast : e.getLast? with
  | none => rw [List.getLast?_eq_none_iff.mp hlast, List.append_nil]
  | some z =>
    -- the last row of both is `z`, and every row behind `l` has its outpoint
    have hzl : l.getLast? = some z := by
      rw [← h.last, List.getLast?_append, hlast]
      rfl
    obtain ⟨l', rfl⟩ := List.getLast?_eq_some_iff.mp hzl
    obtain ⟨hl, -, hle⟩ := List.pairwise_append.mp hm
    have hout : ∀ x ∈ e, x.1 = z.1 := by
      intro x hx
      have hzx := hle z (List.mem_append_right _ List.mem_cons_self) x hx
      have hxz : OutPoint.le x.1 z.1 := by
        rcases List.mem_append.mp (h.mem x (List.mem_append_right _ hx)) with hx' | hx'
        · exact (List.pairwise_append.mp hl).2.2 x hx' z List.mem_cons_self
        · rw [List.mem_singleton.mp hx']
          simp [OutPoint.le]
      exact OutPoint.le_antisymm hxz hzx
    obtain ⟨e', rfl⟩ := List.getLast?_eq_some_iff.mp hlast
    by_cases ho : z.1 = o
    · simp [lastAt, ho]
    · have hnone : (e' ++ [z]).reverse.find? (fun p => decide (p.1 = o)) = none := by
        rw [List.find?_eq_none]
        intro x hx
        rw [hout x (List.mem_reverse.mp hx)]
        simpa using ho
      have hrev : (l' ++ [z] ++ (e' ++ [z])).reverse = (e' ++ [z]).reverse ++ (l' ++ [z]).reverse := List.reverse_append
      rw [lastAt, lastAt, hrev, List.find?_append, hnone, Option.none_or]

/-- The outputs of a snapshot, by outpoint. -/
def snapshotRows (snapshot : UtxoSnapshotDto) : List (OutPoint × TxOut) :=
  (sortEntries snapshot.entries).map fun p => (p.1, p.2.output)

theorem snapshotRows_sorted (snapshot : UtxoSnapshotDto) :
    (snapshotRows snapshot).Pairwise fun a b => OutPoint.le a.1 b.1 := by
  exact List.Pairwise.map _ (fun _ _ hab => hab) (sortEntries_sorted snapshot.entries)

/-- Two accepted snapshots of one root leave tables with the same outputs at the same
    outpoints. -/
theorem snapshot_binds_outputs {db₁ db₂ db₁' db₂' : StorageEngine} {s₁ s₂ : UtxoSnapshotDto}
    (h₁ : db₁.applyUtxoSnapshot H s₁ = .ok db₁') (h₂ : db₂.applyUtxoSnapshot H s₂ = .ok db₂')
    (hroot : s₁.utxoRoot = s₂.utxoRoot) (hsep : UtxoSet.Separated H (snapshotRows s₁) (snapshotRows s₂)) (o : OutPoint) :
    db₁'.utxos[o]?.map UtxoEntry.output = db₂'.utxos[o]?.map UtxoEntry.output := by
  obtain ⟨hr₁, rfl⟩ := applyUtxoSnapshot_ok h₁
  obtain ⟨hr₂, rfl⟩ := applyUtxoSnapshot_ok h₂
  have hrows : ∀ s : UtxoSnapshotDto,
      (Table.insertAll (∅ : Table OutPoint UtxoEntry) (sortEntries s.entries))[o]?.map UtxoEntry.output =
        lastAt (snapshotRows s) o := fun s => by
    rw [get_insertAll_lastAt, lastAt_map]
    rfl
  have hleaves : ∀ s : UtxoSnapshotDto, entriesRoot H s.entries =
      UtxoSet.computeUtxoMerkleRoot H (UtxoSet.leaves H (snapshotRows s)) := fun s => by
    rw [entriesRoot, UtxoSet.leaves, snapshotRows, List.map_map]
    rfl
  rw [hrows, hrows]
  rw [hleaves] at hr₁ hr₂
  rcases UtxoSet.rows_extend hsep (hr₁.trans (hroot.trans hr₂.symm)) with he | he
  · exact lastAt_extends he (snapshotRows_sorted s₂) o
  · exact (lastAt_extends he (snapshotRows_sorted s₁) o).symm

/-- A snapshot of one output, created at `height` by a coinbase or not. -/
def oneOutputSnapshot (H : Hasher) (height : UInt64) (cb : Bool) : UtxoSnapshotDto :=
  let out : TxOut := ⟨700, [0x51]⟩
  ⟨1, Hash256.zero, UtxoSet.computeUtxoLeaf H ⟨Hash256.zero, 0⟩ out, [(⟨Hash256.zero, 0⟩, ⟨out, height, cb⟩)]⟩

set_option maxRecDepth 10000 in
theorem snapshot_binds_outputs_one : let H := Blake3.digest
    let table := fun s => (StorageEngine.empty.applyUtxoSnapshot H s).map fun db =>
      db.utxos[(⟨Hash256.zero, 0⟩ : OutPoint)]?.map UtxoEntry.output
    (∃ a, table (oneOutputSnapshot H 1 true) = .ok a ∧ table (oneOutputSnapshot H 2 false) = .ok a) := by
  intro H table
  obtain ⟨db₁, h₁⟩ : ∃ db, StorageEngine.empty.applyUtxoSnapshot H (oneOutputSnapshot H 1 true) = .ok db := ⟨_, rfl⟩
  obtain ⟨db₂, h₂⟩ : ∃ db, StorageEngine.empty.applyUtxoSnapshot H (oneOutputSnapshot H 2 false) = .ok db := ⟨_, rfl⟩
  have hbinds := snapshot_binds_outputs h₁ h₂ rfl ⟨by decide +kernel, by decide +kernel, by decide +kernel⟩
    ⟨Hash256.zero, 0⟩
  refine ⟨_, by simp only [table, h₁]; rfl, ?_⟩
  simp only [table, h₂, hbinds]
  rfl

set_option maxRecDepth 10000 in
/-- The root does not cover an entry's height, nor whether a coinbase created it. -/
theorem snapshot_height_not_bound :
    let H := Blake3.digest
    let table := fun s => (StorageEngine.empty.applyUtxoSnapshot H s).toOption.map fun db => db.utxos.toList
    (oneOutputSnapshot H 1 true).utxoRoot = (oneOutputSnapshot H 2 false).utxoRoot ∧
      UtxoSet.Separated H (snapshotRows (oneOutputSnapshot H 1 true)) (snapshotRows (oneOutputSnapshot H 2 false)) ∧
      table (oneOutputSnapshot H 1 true) = some [(⟨Hash256.zero, 0⟩, ⟨⟨700, [0x51]⟩, 1, true⟩)] ∧
      table (oneOutputSnapshot H 2 false) = some [(⟨Hash256.zero, 0⟩, ⟨⟨700, [0x51]⟩, 2, false⟩)] :=
  ⟨by decide +kernel, ⟨by decide +kernel, by decide +kernel, by decide +kernel⟩, by decide +kernel, by decide +kernel⟩

end StorageEngine

end Scytale
