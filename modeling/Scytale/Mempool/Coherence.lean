/-
  Scytale.Mempool.Coherence — the indexes of the pool against its entries
  (crates/scytale-mempool/src/pool.rs).

  The priority index, the index of spent outpoints and the byte count are kept by hand, by
  every removal, eviction, confirmation and admission.
  - `IndexedPool.dropEntry` / `IndexedPool.commitEntry`: the two places where they are written.
  - `mempool_coherent`: in every run they are exactly those of the entries.
-/
import Scytale.Mempool.Admission
import Scytale.Blake3

namespace Scytale

open Lib

/-- The length of the canonical bytes, at least one. -/
def Transaction.encodedSize (tx : Transaction) : Nat :=
  max (match tx.toCanonicalBytes with | .ok bs => bs.length | .error _ => 1) 1

def MempoolEntry.spends (e : MempoolEntry) : List OutPoint := e.transaction.inputs.map TxIn.previousOutput

/-- The entries stand under their identifiers, and the indexes are those of the entries. -/
structure Coherent (H : Hasher) (m : Mempool) : Prop where
  keyed : ∀ (id : Hash256) (e : MempoolEntry), m.entries[id]? = some e → e.txid = id ∧ e.transaction.txid H = id
  priority : ∀ k : PriorityKey, m.priorityIndex[k]? = some () ↔
    ∃ (id : Hash256) (e : MempoolEntry), m.entries[id]? = some e ∧ e.priorityKey = k
  spent : ∀ (o : OutPoint) (id : Hash256), m.spentOutpoints[o]? = some id ↔
    ∃ e, m.entries[id]? = some e ∧ o ∈ e.spends
  bytes : m.totalBytes = Table.sumBy MempoolEntry.sizeBytes m.entries

/-- No two entries spend one output. -/
def ConflictFree (m : Mempool) : Prop := ∀ (id id' : Hash256) (e e' : MempoolEntry) (o : OutPoint),
  m.entries[id]? = some e → m.entries[id']? = some e' → o ∈ e.spends → o ∈ e'.spends → id = id'

/-- The pool and the transactions handed to it are in memory together: their bytes are counted
    in a `usize`. -/
def PoolOp.Fits (m : Mempool) : PoolOp → Prop
  | .admitTx tx _ _ _ => m.totalBytes + tx.encodedSize < 2 ^ 64
  | .reorg txs _ _ _ => m.totalBytes + (txs.map Transaction.encodedSize).sum < 2 ^ 64
  | .remove _ => True
  | .connect _ _ => True

variable {H : Hasher} {m : Mempool}

namespace Mempool

theorem coherent_withConfig (maxCount maxBytes : Nat) (minFeeRate : UInt64) :
    Coherent H (withConfig maxCount maxBytes minFeeRate) := by
  have hentries : (withConfig maxCount maxBytes minFeeRate).entries = ∅ := rfl
  have hpriority : (withConfig maxCount maxBytes minFeeRate).priorityIndex = ∅ := rfl
  have hspent : (withConfig maxCount maxBytes minFeeRate).spentOutpoints = ∅ := rfl
  refine ⟨?_, ?_, ?_, ?_⟩
  · intro id e h
    rw [hentries, Table.get_empty] at h
    cases h
  · intro k
    simp [hentries, hpriority]
  · intro o id
    simp [hentries, hspent]
  · rw [hentries, Table.sumBy_empty]
    rfl

end Mempool

/-! ## An entry goes, an entry comes -/

/-- The part of coherence that needs no bound on the bytes: they are at most counted. -/
structure IndexedPool (H : Hasher) (m : Mempool) : Prop where
  keyed : ∀ (id : Hash256) (e : MempoolEntry), m.entries[id]? = some e → e.txid = id ∧ e.transaction.txid H = id
  priority : ∀ k : PriorityKey, m.priorityIndex[k]? = some () ↔
    ∃ (id : Hash256) (e : MempoolEntry), m.entries[id]? = some e ∧ e.priorityKey = k
  spent : ∀ (o : OutPoint) (id : Hash256), m.spentOutpoints[o]? = some id ↔
    ∃ e, m.entries[id]? = some e ∧ o ∈ e.spends
  counted : m.totalBytes ≤ Table.sumBy MempoolEntry.sizeBytes m.entries

theorem Coherent.indexed (h : Coherent H m) : IndexedPool H m := ⟨h.keyed, h.priority, h.spent, Nat.le_of_eq h.bytes⟩

theorem IndexedPool.coherent (h : IndexedPool H m) (hb : m.totalBytes = Table.sumBy MempoolEntry.sizeBytes m.entries) :
    Coherent H m := ⟨h.keyed, h.priority, h.spent, hb⟩

namespace IndexedPool

theorem conflictFree (h : IndexedPool H m) : ConflictFree m := by
  intro id id' e e' o he he' ho ho'
  have h1 := (h.spent o id).mpr ⟨e, he, ho⟩
  have h2 := (h.spent o id').mpr ⟨e', he', ho'⟩
  rw [h1] at h2
  exact Option.some.inj h2

/-- Keys name the identifier. -/
theorem key_inj (h : IndexedPool H m) {id id' : Hash256} {e e' : MempoolEntry} (he : m.entries[id]? = some e)
    (he' : m.entries[id']? = some e') (hk : e.priorityKey = e'.priorityKey) : id = id' := by
  have hid : e.txid = e'.txid := congrArg PriorityKey.txid hk
  rwa [(h.keyed id e he).1, (h.keyed id' e' he').1] at hid

end IndexedPool

theorem Coherent.conflictFree (h : Coherent H m) : ConflictFree m := h.indexed.conflictFree

theorem Mempool.dropEntry_entries (m : Mempool) (txid : Hash256) : (m.dropEntry txid).entries = m.entries.erase txid := by
  unfold dropEntry
  split
  · rename_i hnone
    refine (Table.ext fun k => ?_)
    rw [Table.get_erase]
    split
    · rename_i heq
      rw [← heq, hnone]
    · rfl
  · rfl

theorem Mempool.get_dropEntry (m : Mempool) (txid id : Hash256) (e : MempoolEntry) :
    (m.dropEntry txid).entries[id]? = some e ↔ id ≠ txid ∧ m.entries[id]? = some e := by
  rw [dropEntry_entries, Table.get_erase]
  by_cases h : txid = id
  · simp [h]
  · have : id ≠ txid := fun e => h e.symm
    simp [h, this]

theorem IndexedPool.dropEntry (h : IndexedPool H m) (txid : Hash256) : IndexedPool H (m.dropEntry txid) := by
  cases hentry : m.entries[txid]? with
  | none =>
    have hsame : m.dropEntry txid = m := by rw [Mempool.dropEntry, hentry]
    rw [hsame]
    exact h
  | some entry =>
    have hdrop : m.dropEntry txid = { m with
        entries := m.entries.erase txid
        priorityIndex := m.priorityIndex.erase entry.priorityKey
        totalBytes := m.totalBytes - entry.sizeBytes
        spentOutpoints := Table.eraseAll m.spentOutpoints entry.spends } := by
      rw [Mempool.dropEntry, hentry]
      rfl
    refine ⟨fun id e he => h.keyed id e ((m.get_dropEntry txid id e).mp he).2, fun k => ?_, fun o id => ?_, ?_⟩
    · simp only [Mempool.get_dropEntry]
      rw [hdrop, Table.get_erase]
      by_cases hk : entry.priorityKey = k
      · rw [if_pos hk]
        refine iff_of_false (by simp) ?_
        rintro ⟨id, e, ⟨hne, he⟩, rfl⟩
        exact hne (h.key_inj he hentry hk.symm)
      · rw [if_neg hk, h.priority]
        refine exists_congr fun id => exists_congr fun e => ⟨fun ⟨he, hke⟩ => ⟨⟨?_, he⟩, hke⟩, fun ⟨he, hke⟩ => ⟨he.2, hke⟩⟩
        rintro rfl
        rw [hentry] at he
        cases he
        exact hk hke
    · simp only [Mempool.get_dropEntry]
      rw [hdrop, Table.get_eraseAll]
      by_cases ho : o ∈ entry.spends
      · rw [if_pos ho]
        refine iff_of_false (by simp) ?_
        rintro ⟨e, ⟨hne, he⟩, hoe⟩
        exact hne (h.conflictFree id txid e entry o he hentry hoe ho)
      · rw [if_neg ho, h.spent]
        refine exists_congr fun e => ⟨fun ⟨he, hoe⟩ => ⟨⟨?_, he⟩, hoe⟩, fun ⟨he, hoe⟩ => ⟨he.2, hoe⟩⟩
        rintro rfl
        rw [hentry] at he
        cases he
        exact ho hoe
    · have hsum := Table.sumBy_erase MempoolEntry.sizeBytes hentry
      have hcounted := h.counted
      rw [hdrop]
      show m.totalBytes - entry.sizeBytes ≤ Table.sumBy MempoolEntry.sizeBytes (m.entries.erase txid)
      omega

/-- An exact count stays exact. -/
theorem Mempool.totalBytes_dropEntry (h : m.totalBytes = Table.sumBy MempoolEntry.sizeBytes m.entries) (txid : Hash256) :
    (m.dropEntry txid).totalBytes = Table.sumBy MempoolEntry.sizeBytes (m.dropEntry txid).entries := by
  unfold dropEntry
  split
  · exact h
  · rename_i entry hentry
    have hsum := Table.sumBy_erase MempoolEntry.sizeBytes hentry
    show m.totalBytes - entry.sizeBytes = Table.sumBy MempoolEntry.sizeBytes (m.entries.erase txid)
    omega

theorem Coherent.dropEntry (h : Coherent H m) (txid : Hash256) : Coherent H (m.dropEntry txid) :=
  (h.indexed.dropEntry txid).coherent (Mempool.totalBytes_dropEntry h.bytes txid)

theorem keptByDrop_indexed : Mempool.KeptByDrop (IndexedPool H) where
  drop _ txid h := h.dropEntry txid
  links _ _ _ h := ⟨h.keyed, h.priority, h.spent, h.counted⟩

theorem keptByDrop_coherent : Mempool.KeptByDrop (Coherent H) where
  drop _ txid h := h.dropEntry txid
  links _ _ _ h := ⟨h.keyed, h.priority, h.spent, h.bytes⟩

/-- The bytes only get fewer. -/
theorem keptByDrop_totalBytes (n : Nat) : Mempool.KeptByDrop fun m => m.totalBytes ≤ n where
  drop m txid h := by
    unfold Mempool.dropEntry
    split
    · exact h
    · exact Nat.le_trans (Nat.sub_le _ _) h
  links _ _ _ h := h

theorem get_recordSpent (txid : Hash256) (is : List TxIn) : ∀ (s : Table OutPoint Hash256) (o : OutPoint),
    (is.foldl (fun s i => s.insert i.previousOutput txid) s)[o]? =
      if o ∈ is.map TxIn.previousOutput then some txid else s[o]? := by
  induction is with
  | nil => intro s o; rfl
  | cons i is ih =>
    intro s o
    rw [List.foldl_cons, ih, Table.get_insert, List.map_cons]
    by_cases ho : o ∈ is.map TxIn.previousOutput
    · simp [ho]
    · by_cases hi : i.previousOutput = o
      · simp [hi]
      · have : o ≠ i.previousOutput := fun e => hi e.symm
        simp [ho, hi, this]

theorem Mempool.get_commitEntry (m : Mempool) (entry : MempoolEntry) (parents : TxidSet) (id : Hash256) (e : MempoolEntry) :
    (m.commitEntry entry parents).entries[id]? = some e ↔
      (id = entry.txid ∧ e = entry) ∨ (id ≠ entry.txid ∧ m.entries[id]? = some e) := by
  show (m.entries.insert entry.txid entry)[id]? = some e ↔ _
  rw [Table.get_insert]
  by_cases he : entry.txid = id
  · simp [he, eq_comm]
  · have : id ≠ entry.txid := fun h => he h.symm
    simp [he, this]

theorem Mempool.get_commitEntry_of_fresh {entry : MempoolEntry} (hfresh : m.entries[entry.txid]? = none) (parents : TxidSet)
    (id : Hash256) (e : MempoolEntry) :
    (m.commitEntry entry parents).entries[id]? = some e ↔ (id = entry.txid ∧ e = entry) ∨ m.entries[id]? = some e := by
  rw [get_commitEntry]
  refine or_congr Iff.rfl ⟨And.right, fun he => ⟨?_, he⟩⟩
  rintro rfl
  rw [hfresh] at he
  cases he

theorem IndexedPool.commitEntry (h : IndexedPool H m) {entry : MempoolEntry} (parents : TxidSet)
    (hid : entry.transaction.txid H = entry.txid) (hfresh : m.entries[entry.txid]? = none)
    (hfree : ∀ o ∈ entry.spends, m.spentOutpoints[o]? = none) : IndexedPool H (m.commitEntry entry parents) := by
  refine ⟨fun id e he => ?_, fun k => ?_, fun o id => ?_, ?_⟩
  · rcases (Mempool.get_commitEntry_of_fresh hfresh parents id e).mp he with ⟨rfl, rfl⟩ | he
    · exact ⟨rfl, hid⟩
    · exact h.keyed id e he
  · simp only [Mempool.get_commitEntry_of_fresh hfresh]
    show (m.priorityIndex.insert entry.priorityKey ())[k]? = some () ↔ _
    rw [Table.get_insert]
    by_cases hk : entry.priorityKey = k
    · rw [if_pos hk]
      exact iff_of_true rfl ⟨entry.txid, entry, .inl ⟨rfl, rfl⟩, hk⟩
    · rw [if_neg hk, h.priority]
      refine exists_congr fun id => exists_congr fun e =>
        ⟨fun ⟨he, hke⟩ => ⟨.inr he, hke⟩, fun ⟨he, hke⟩ => ⟨?_, hke⟩⟩
      rcases he with ⟨-, rfl⟩ | he
      · exact absurd hke hk
      · exact he
  · simp only [Mempool.get_commitEntry_of_fresh hfresh]
    show (entry.transaction.inputs.foldl (fun s i => s.insert i.previousOutput entry.txid) m.spentOutpoints)[o]? = some id ↔ _
    rw [get_recordSpent]
    by_cases ho : o ∈ entry.transaction.inputs.map TxIn.previousOutput
    · rw [if_pos ho]
      constructor
      · intro hid
        cases hid
        exact ⟨entry, .inl ⟨rfl, rfl⟩, ho⟩
      · rintro ⟨e, ⟨rfl, -⟩ | he, hoe⟩
        · rfl
        · -- the inputs were free
          have hspent := (h.spent o id).mpr ⟨e, he, hoe⟩
          rw [hfree o ho] at hspent
          cases hspent
    · rw [if_neg ho, h.spent]
      refine exists_congr fun e => ⟨fun ⟨he, hoe⟩ => ⟨.inr he, hoe⟩, fun ⟨he, hoe⟩ => ⟨?_, hoe⟩⟩
      rcases he with ⟨-, rfl⟩ | he
      · exact absurd hoe ho
      · exact he
  · have hcounted := h.counted
    show Mempool.addBytes m.totalBytes entry.sizeBytes ≤ Table.sumBy MempoolEntry.sizeBytes (m.entries.insert entry.txid entry)
    rw [Table.sumBy_insert _ _ hfresh, Mempool.addBytes]
    omega

theorem Coherent.commitEntry (h : Coherent H m) {entry : MempoolEntry} (parents : TxidSet)
    (hid : entry.transaction.txid H = entry.txid) (hfresh : m.entries[entry.txid]? = none)
    (hfree : ∀ o ∈ entry.spends, m.spentOutpoints[o]? = none) (hfit : m.totalBytes + entry.sizeBytes < 2 ^ 64) :
    Coherent H (m.commitEntry entry parents) := by
  refine (h.indexed.commitEntry parents hid hfresh hfree).coherent ?_
  show Mempool.addBytes m.totalBytes entry.sizeBytes = Table.sumBy MempoolEntry.sizeBytes (m.entries.insert entry.txid entry)
  rw [Table.sumBy_insert _ _ hfresh, ← h.bytes, Mempool.addBytes]
  omega

/-! ## The operations -/

namespace Mempool

theorem findConflict_eq_none {is : List TxIn} : m.findConflict is = none ↔
    ∀ o ∈ is.map TxIn.previousOutput, m.spentOutpoints[o]? = none := by
  induction is with
  | nil => simp [findConflict]
  | cons i is ih =>
    unfold findConflict
    rw [List.map_cons, List.forall_mem_cons, ← ih]
    cases m.spentOutpoints[i.previousOutput]? with
    | some id => simp only [reduceCtorEq, false_and]
    | none => simp only [true_and]

section
variable {tx : Transaction} {utxos : UtxoSet} {verifier : AuthorizationVerifier} {now : UInt64} {entry : MempoolEntry}
  {parents : TxidSet}

/-- The entry of an admitted transaction. -/
theorem Admits.entry_eq (h : Admits H m tx utxos verifier now entry parents) :
    entry.transaction = tx ∧ entry.txid = tx.txid H ∧ entry.sizeBytes = tx.encodedSize := by
  obtain ⟨es, -, -, totalIn, totalOut, -, -, -, rfl, -⟩ := h.resolved
  exact ⟨rfl, rfl, rfl⟩

theorem Admits.fresh_of_within {m₁ : Mempool} (h : Admits H m tx utxos verifier now entry parents)
    (hw : Table.Within m₁.entries m.entries) : m₁.entries[entry.txid]? = none := by
  refine Option.eq_none_iff_forall_not_mem.mpr fun e he => ?_
  have hold := hw _ _ he
  rw [h.entry_eq.2.1, h.fresh] at hold
  cases hold

/-- What the commit needs, in the pool where room was made. -/
theorem Admits.room_for_commit (h : Admits H m tx utxos verifier now entry parents) (hc : IndexedPool H m) :
    let m₁ := (makeRoom entry (m.priorityIndex.size + 1) m).1
    IndexedPool H m₁ ∧ m₁.entries[entry.txid]? = none ∧ ∀ o ∈ entry.spends, m₁.spentOutpoints[o]? = none := by
  intro m₁
  obtain ⟨htx, -⟩ := h.entry_eq
  have hroom : IndexedPool H m₁ := keptByDrop_indexed.makeRoom entry (m.priorityIndex.size + 1) hc
  have hwithin : Table.Within m₁.entries m.entries := makeRoom_within entry (m.priorityIndex.size + 1) m
  refine ⟨hroom, h.fresh_of_within hwithin, fun o ho => Option.eq_none_iff_forall_not_mem.mpr fun id hs => ?_⟩
  obtain ⟨e, he, hoe⟩ := (hroom.spent o id).mp hs
  have hspent := (hc.spent o id).mpr ⟨e, hwithin _ _ he, hoe⟩
  rw [MempoolEntry.spends, htx] at ho
  rw [findConflict_eq_none.mp h.unconflicted o ho] at hspent
  cases hspent

theorem Admits.indexed_commit (h : Admits H m tx utxos verifier now entry parents) (hc : IndexedPool H m) :
    IndexedPool H ((makeRoom entry (m.priorityIndex.size + 1) m).1.commitEntry entry parents) := by
  obtain ⟨htx, hid, -⟩ := h.entry_eq
  obtain ⟨hroom, hfresh, hfree⟩ := h.room_for_commit hc
  exact hroom.commitEntry parents (by rw [htx, hid]) hfresh hfree

theorem Admits.coherent_commit (h : Admits H m tx utxos verifier now entry parents) (hc : Coherent H m)
    (hfit : m.totalBytes + tx.encodedSize < 2 ^ 64) :
    Coherent H ((makeRoom entry (m.priorityIndex.size + 1) m).1.commitEntry entry parents) := by
  obtain ⟨htx, hid, hsize⟩ := h.entry_eq
  have hbytes := (keptByDrop_totalBytes m.totalBytes).makeRoom entry (m.priorityIndex.size + 1) (Nat.le_refl _)
  obtain ⟨-, hfresh, hfree⟩ := h.room_for_commit hc.indexed
  exact (keptByDrop_coherent.makeRoom entry (m.priorityIndex.size + 1) hc).commitEntry parents (by rw [htx, hid]) hfresh
    hfree (by rw [hsize]; omega)

theorem indexed_admission (tx : Transaction) (utxos : UtxoSet) (verifier : AuthorizationVerifier) (now : UInt64)
    (hc : IndexedPool H m) : IndexedPool H (m.admitTransaction H tx utxos verifier now).1 := by
  refine admission_keeps hc (fun entry => keptByDrop_indexed.makeRoom entry (m.priorityIndex.size + 1) hc) ?_
  intro entry parents m₁ hadm hroom _
  have hk := hadm.indexed_commit hc
  rw [hroom] at hk
  exact hk

theorem indexed_takeBack (tx : Transaction) (utxos : UtxoSet) (verifier : AuthorizationVerifier) (now : UInt64)
    (hc : IndexedPool H m) : IndexedPool H (m.takeBack H utxos verifier now tx) := by
  unfold takeBack
  split
  · exact hc
  · exact indexed_admission tx utxos verifier now hc

theorem coherent_admission (tx : Transaction) (utxos : UtxoSet) (verifier : AuthorizationVerifier) (now : UInt64)
    (hc : Coherent H m) (hfit : m.totalBytes + tx.encodedSize < 2 ^ 64) :
    Coherent H (m.admitTransaction H tx utxos verifier now).1 ∧
      (m.admitTransaction H tx utxos verifier now).1.totalBytes ≤ m.totalBytes + tx.encodedSize := by
  have hbytes := fun entry => (keptByDrop_totalBytes m.totalBytes).makeRoom entry (m.priorityIndex.size + 1) (Nat.le_refl _)
  refine admission_keeps (P := fun m' => Coherent H m' ∧ m'.totalBytes ≤ m.totalBytes + tx.encodedSize)
    ⟨hc, Nat.le_add_right _ _⟩ (fun entry => ?_) ?_
  · exact ⟨keptByDrop_coherent.makeRoom entry (m.priorityIndex.size + 1) hc, Nat.le_trans (hbytes entry) (Nat.le_add_right _ _)⟩
  · intro entry parents m₁ hadm hroom _
    have hk := hadm.coherent_commit hc hfit
    have hb := hbytes entry
    obtain ⟨-, -, hsize⟩ := hadm.entry_eq
    rw [hroom] at hk hb
    refine ⟨hk, ?_⟩
    show addBytes m₁.totalBytes entry.sizeBytes ≤ _
    rw [addBytes, hsize]
    simp only at hb
    omega

theorem coherent_reorg (utxos : UtxoSet) (verifier : AuthorizationVerifier) (now : UInt64) (txs : List Transaction) :
    ∀ {m : Mempool}, Coherent H m → m.totalBytes + (txs.map Transaction.encodedSize).sum < 2 ^ 64 →
      Coherent H (txs.foldl (takeBack H utxos verifier now) m) := by
  induction txs with
  | nil => intro m h _; exact h
  | cons tx txs ih =>
    intro m h hfit
    rw [List.map_cons, List.sum_cons] at hfit
    rw [List.foldl_cons, takeBack]
    split
    · exact ih h (by omega)
    · obtain ⟨hc, hb⟩ := coherent_admission tx utxos verifier now h (by omega)
      exact ih hc (by omega)

end

end Mempool

/-- In every run, whatever is done in it. -/
theorem PoolRun.indexed {allowed : Mempool → PoolOp → Prop} (h : PoolRun H allowed m) : IndexedPool H m :=
  h.keeps (fun maxCount maxBytes minFeeRate => (Mempool.coherent_withConfig maxCount maxBytes minFeeRate).indexed)
    fun m op hm _ => by
      cases op with
      | admitTx tx utxos verifier now => exact Mempool.indexed_admission tx utxos verifier now hm
      | remove txid => exact keptByDrop_indexed.removal txid hm
      | connect block utxos => exact keptByDrop_indexed.onBlockConnected block utxos hm
      | reorg txs utxos verifier now =>
        rw [Mempool.step, Mempool.onReorg_fst]
        exact List.foldlRecOn txs _ hm fun _ h tx _ => Mempool.indexed_takeBack tx utxos verifier now h

theorem PoolRun.coherent (h : PoolRun H PoolOp.Fits m) : Coherent H m :=
  h.keeps Mempool.coherent_withConfig fun m op hm hop => by
    cases op with
    | admitTx tx utxos verifier now => exact (Mempool.coherent_admission tx utxos verifier now hm hop).1
    | remove txid => exact keptByDrop_coherent.removal txid hm
    | connect block utxos => exact keptByDrop_coherent.onBlockConnected block utxos hm
    | reorg txs utxos verifier now =>
      rw [Mempool.step, Mempool.onReorg_fst]
      exact Mempool.coherent_reorg utxos verifier now txs hm hop

/-- The count never passes what it is kept in. -/
theorem Mempool.totalBytes_admission (tx : Transaction) (utxos : UtxoSet) (verifier : AuthorizationVerifier) (now : UInt64)
    (h : m.totalBytes ≤ 2 ^ 64 - 1) : (m.admitTransaction H tx utxos verifier now).1.totalBytes ≤ 2 ^ 64 - 1 :=
  admission_keeps (P := fun m => m.totalBytes ≤ 2 ^ 64 - 1) h
    (fun entry => (keptByDrop_totalBytes (2 ^ 64 - 1)).makeRoom entry (m.priorityIndex.size + 1) h)
    fun _ _ _ => Nat.min_le_right _ _

theorem PoolRun.totalBytes_le {allowed : Mempool → PoolOp → Prop} (h : PoolRun H allowed m) : m.totalBytes ≤ 2 ^ 64 - 1 :=
  h.keeps (P := fun m => m.totalBytes ≤ 2 ^ 64 - 1) (fun _ _ _ => Nat.zero_le _) fun m op hm _ => by
    cases op with
    | admitTx tx utxos verifier now => exact Mempool.totalBytes_admission tx utxos verifier now hm
    | remove txid => exact (keptByDrop_totalBytes _).removal txid hm
    | connect block utxos => exact (keptByDrop_totalBytes _).onBlockConnected block utxos hm
    | reorg txs utxos verifier now =>
      rw [Mempool.step, Mempool.onReorg_fst]
      refine List.foldlRecOn (motive := fun m : Mempool => m.totalBytes ≤ 2 ^ 64 - 1) txs _ hm fun m hm tx _ => ?_
      unfold Mempool.takeBack
      split
      · exact hm
      · exact Mempool.totalBytes_admission tx utxos verifier now hm

/-- In every run of admissions, removals, connected blocks and reorganisations, under any
    verifiers, sets and times: the priority index holds the keys of the entries, the index of
    spent outpoints their inputs, each once, and the byte count is the sum of their sizes. -/
theorem mempool_coherent (h : PoolRun H PoolOp.Fits m) : Coherent H m ∧ ConflictFree m :=
  ⟨h.coherent, h.coherent.conflictFree⟩

/-! ### A parent, its child, and another -/

/-- Two outputs to spend. -/
def funding : UtxoSet :=
  ⟨((∅ : Table OutPoint UtxoEntry).insert ⟨Hash256.zero, 0⟩ ⟨⟨10000, [0x51]⟩, 0, false⟩).insert
    ⟨Hash256.zero, 1⟩ ⟨⟨10000, [0x51]⟩, 0, false⟩⟩

/-- It spends one output and pays another. -/
def payOn (o : OutPoint) (value : UInt64) : Transaction := ⟨transactionVersion1, [TxIn.new o [0x51]], [⟨value, [0x51]⟩], 0⟩

/-- It leaves a fee of 1000. -/
def parentTx : Transaction := payOn ⟨Hash256.zero, 0⟩ 9000

/-- A fee of 4000, on the parent's output. -/
def childTx (H : Hasher) : Transaction := payOn ⟨parentTx.txid H, 0⟩ 5000

/-- A fee of 2000. -/
def otherTx : Transaction := payOn ⟨Hash256.zero, 1⟩ 8000

/-- An admission on the two outputs, by a verifier that accepts everything. -/
def admitFunded (tx : Transaction) : PoolOp := .admitTx tx funding (fun _ _ _ => .ok ()) 100

/-- An empty pool with room for `n` entries. -/
def smallPool (n : Nat) : Mempool := Mempool.withConfig n 10000 0

/-- The parent and its child. -/
def familyPool (H : Hasher) (n : Nat) : Mempool :=
  ((smallPool n).step H (admitFunded parentTx)).step H (admitFunded (childTx H))

set_option maxRecDepth 10000 in
theorem mempool_coherent_family : Coherent Blake3.digest (familyPool Blake3.digest 10) ∧
    ConflictFree (familyPool Blake3.digest 10) :=
  mempool_coherent (.step (.step (.empty 10 10000 0) (admitFunded parentTx) (by unfold admitFunded PoolOp.Fits; decide +kernel))
    (admitFunded (childTx Blake3.digest)) (by unfold admitFunded PoolOp.Fits; decide +kernel))

end Scytale
