/-
  Scytale.Mempool.Eviction — the loop that makes room for an entry
  (crates/scytale-mempool/src/pool.rs).

  While the pool is full the loop takes its lowest entry, with the descendants; at the first
  that is not lower than the new entry it gives up, and what it took stays out. In an empty
  pool it stops, full or not.
  - `Evictions`: the pools the loop passes through.
  - `makeRoom_outcome`: the loop ends.
  - `makeRoom_error_iff`: it gives up exactly where those that outlast all evictions leave no
    room.
  - `admission_atomic_iff`: what a refused admission leaves.
  - `pool_within_capacity`: the capacity, over a run.
-/
import Scytale.Mempool.Links
import Scytale.Blake3

namespace Scytale

open Lib

variable {H : Hasher} {m : Mempool} {entry : MempoolEntry}

/-- The order of the keys starts with the fee rates. -/
theorem PriorityKey.feeRate_le {a b : PriorityKey} (h : compare a b = .lt) : a.feeRate ≤ b.feeRate := by
  have hlex : compareLex (compareOn feeRate) (compareLex (compareOn addedTime) (compareOn txid)) a b = .lt := h
  rw [compareLex, Ordering.then_eq_lt] at hlex
  rcases hlex with hlt | ⟨heq, -⟩
  · exact UInt64.le_of_lt (Std.compare_eq_lt.mp hlt)
  · exact UInt64.le_of_eq (Std.compare_eq_iff_eq.mp heq)

namespace Mempool

/-- Full for an entry, with `count` others of `bytes` bytes: the condition of the loop. -/
def Crowded (m : Mempool) (entry : MempoolEntry) (count bytes : Nat) : Prop :=
  count ≥ m.maxCount ∨ addBytes bytes entry.sizeBytes > m.maxBytes

/-- The entries of a lower rate. -/
def cheaper (m : Mempool) (rate : UInt64) : List Hash256 :=
  (m.entries.toList.filter fun p => decide (p.2.feeRate < rate)).map (·.1)

/-- Those and their descendants: all that evictions for an entry of this rate can take. -/
def evictable (m : Mempool) (rate : UInt64) : List Hash256 :=
  collectDescendants m.parentToChildren (linkCount m.parentToChildren + (m.cheaper rate).length + 1) (m.cheaper rate) []

/-- The entries that outlast them. -/
def outlasting (m : Mempool) (rate : UInt64) : Table Hash256 MempoolEntry :=
  m.entries.filter fun id _ => decide (id ∉ m.evictable rate)

/-- The byte count when only `kept` is left. -/
def bytesLeft (m : Mempool) (kept : Table Hash256 MempoolEntry) : Nat :=
  m.totalBytes - (Table.sumBy MempoolEntry.sizeBytes m.entries - Table.sumBy MempoolEntry.sizeBytes kept)

/-- There are entries that no eviction takes, and they leave no room. -/
def StaysCrowded (m : Mempool) (entry : MempoolEntry) : Prop :=
  m.outlasting entry.feeRate ≠ ∅ ∧
    m.Crowded entry (m.outlasting entry.feeRate).size (m.bytesLeft (m.outlasting entry.feeRate))

/-- The pools the loop passes through. -/
inductive Evictions (entry : MempoolEntry) (m : Mempool) : Mempool → Prop where
  | none : Evictions entry m m
  | evict {m' : Mempool} {lowest : PriorityKey} (h : Evictions entry m m')
      (hlowest : m'.priorityIndex.toList.head? = some (lowest, ())) (hrate : lowest.feeRate < entry.feeRate) :
      Evictions entry m (m'.removeTransactionAndDescendants lowest.txid).1

/-- Where the loop ends. -/
inductive Outcome (entry : MempoolEntry) (m : Mempool) : Except MempoolError Unit → Prop where
  | room (h : ¬m.Crowded entry m.entries.size m.totalBytes) : Outcome entry m (.ok ())
  | emptied (h : m.priorityIndex.toList.head? = none) : Outcome entry m (.ok ())
  | full {lowest : PriorityKey} (h : m.Crowded entry m.entries.size m.totalBytes)
      (hlowest : m.priorityIndex.toList.head? = some (lowest, ())) (hrate : entry.feeRate ≤ lowest.feeRate) :
      Outcome entry m (.error (.mempoolFull entry.feeRate lowest.feeRate))

/-! ## The lowest key -/

/-- A key of the index is the key of an entry. -/
theorem key_entry (h : IndexedPool H m) {key : PriorityKey} (hkey : m.priorityIndex[key]? = some ()) :
    ∃ e, m.entries[key.txid]? = some e ∧ e.priorityKey = key := by
  obtain ⟨id, e, he, rfl⟩ := (h.priority key).mp hkey
  have hid : e.priorityKey.txid = id := (h.keyed id e he).1
  exact ⟨e, hid ▸ he, rfl⟩

theorem lowest_entry (h : IndexedPool H m) {lowest : PriorityKey}
    (hlowest : m.priorityIndex.toList.head? = some (lowest, ())) :
    ∃ e, m.entries[lowest.txid]? = some e ∧ e.priorityKey = lowest :=
  key_entry h (Table.mem_toList.mp (List.mem_of_mem_head? hlowest))

theorem lowest_le (h : IndexedPool H m) {lowest : PriorityKey}
    (hlowest : m.priorityIndex.toList.head? = some (lowest, ())) {id : Hash256} {e : MempoolEntry}
    (he : m.entries[id]? = some e) : lowest.feeRate ≤ e.feeRate := by
  have hkey : (e.priorityKey, ()) ∈ m.priorityIndex.toList := Table.mem_toList.mpr ((h.priority _).mpr ⟨id, e, he, rfl⟩)
  have hsorted := Std.ExtTreeMap.ordered_keys_toList (t := m.priorityIndex)
  obtain ⟨keys, hkeys⟩ : ∃ keys, m.priorityIndex.toList = (lowest, ()) :: keys := List.head?_eq_some_iff.mp hlowest
  rw [hkeys] at hkey hsorted
  rcases List.mem_cons.mp hkey with heq | hkey
  · exact UInt64.le_of_eq (congrArg (fun p => p.1.feeRate) heq).symm
  · exact PriorityKey.feeRate_le ((List.pairwise_cons.mp hsorted).1 _ hkey)

/-- A pool with an entry has a lowest one. -/
theorem head_ne_none (h : IndexedPool H m) {id : Hash256} {e : MempoolEntry} (he : m.entries[id]? = some e) :
    m.priorityIndex.toList.head? ≠ none := by
  intro hnone
  have hkey : (e.priorityKey, ()) ∈ m.priorityIndex.toList := Table.mem_toList.mpr ((h.priority _).mpr ⟨id, e, he, rfl⟩)
  rw [List.head?_eq_none_iff.mp hnone] at hkey
  cases hkey

/-! ## What evictions can take -/

theorem mem_cheaper {rate : UInt64} {id : Hash256} :
    id ∈ m.cheaper rate ↔ ∃ e, m.entries[id]? = some e ∧ e.feeRate < rate := by
  simp only [cheaper, List.mem_map, List.mem_filter, decide_eq_true_eq]
  constructor
  · rintro ⟨⟨id, e⟩, ⟨hp, hrate⟩, rfl⟩
    exact ⟨e, Table.mem_toList.mp hp, hrate⟩
  · rintro ⟨e, he, hrate⟩
    exact ⟨(id, e), ⟨Table.mem_toList.mpr he, hrate⟩, rfl⟩

theorem mem_evictable_of_cheaper {rate : UInt64} {id : Hash256} (h : id ∈ m.cheaper rate) : id ∈ m.evictable rate :=
  (collectDescendants_closed m.parentToChildren (m.cheaper rate)).1 id h

theorem evictable_closed {rate : UInt64} {p c : Hash256} (hp : p ∈ m.evictable rate) (hc : m.Down p c) :
    c ∈ m.evictable rate := (collectDescendants_closed m.parentToChildren (m.cheaper rate)).2 p hp c hc

theorem evictable_within {rate : UInt64} {P : Hash256 → Prop} (hcheaper : ∀ id ∈ m.cheaper rate, P id)
    (hdown : ∀ p c, P p → m.Down p c → P c) : ∀ id ∈ m.evictable rate, P id :=
  collectDescendants_within hdown _ hcheaper

theorem get_outlasting (m : Mempool) (rate : UInt64) (id : Hash256) (e : MempoolEntry) :
    (m.outlasting rate)[id]? = some e ↔ id ∉ m.evictable rate ∧ m.entries[id]? = some e := by
  rw [outlasting, Std.ExtTreeMap.getElem?_filter', Option.filter_eq_some_iff, decide_eq_true_eq]
  exact and_comm

/-! ## The run of the loop -/

theorem Crowded.mono {count bytes count' bytes' : Nat} (h : m.Crowded entry count bytes) (hcount : count ≤ count')
    (hbytes : bytes ≤ bytes') : m.Crowded entry count' bytes' := by
  unfold Crowded addBytes at h ⊢
  omega

theorem keptByDrop_bytesLeft (base : Mempool) : KeptByDrop fun m =>
    Table.Within m.entries base.entries ∧ m.totalBytes = base.bytesLeft m.entries where
  drop m txid := by
    rintro ⟨hw, hb⟩
    refine ⟨fun id e he => hw id e (dropEntry_within m txid id e he), ?_⟩
    cases hentry : m.entries[txid]? with
    | none =>
      rw [dropEntry, hentry]
      exact hb
    | some entry =>
      have hsum := Table.sumBy_erase MempoolEntry.sizeBytes hentry
      have hle := hw.sumBy_le MempoolEntry.sizeBytes
      rw [dropEntry, hentry]
      show m.totalBytes - entry.sizeBytes = base.bytesLeft (m.entries.erase txid)
      rw [hb, bytesLeft, bytesLeft]
      omega
  links _ _ _ h := h

theorem keptByDrop_limits (base : Mempool) : KeptByDrop fun m =>
    m.maxCount = base.maxCount ∧ m.maxBytes = base.maxBytes where
  drop m txid h := by
    unfold dropEntry
    split
    · exact h
    · exact h
  links _ _ _ h := h

namespace Evictions

variable {m' : Mempool}

theorem keeps {P : Mempool → Prop} (k : KeptByDrop P) (h : Evictions entry m m') (hm : P m) : P m' := by
  induction h with
  | none => exact hm
  | evict _ _ _ ih => exact k.removal _ ih

theorem within (h : Evictions entry m m') : Table.Within m'.entries m.entries :=
  h.keeps (keptByDrop_within m) fun _ _ h => h

theorem indexed (h : Evictions entry m m') (hm : IndexedPool H m) : IndexedPool H m' := h.keeps keptByDrop_indexed hm

theorem totalBytes_eq (h : Evictions entry m m') : m'.totalBytes = m.bytesLeft m'.entries :=
  (h.keeps (keptByDrop_bytesLeft m) ⟨fun _ _ h => h, by simp [bytesLeft]⟩).2

theorem crowded_iff (h : Evictions entry m m') (count bytes : Nat) :
    m'.Crowded entry count bytes ↔ m.Crowded entry count bytes := by
  obtain ⟨hc, hb⟩ := h.keeps (keptByDrop_limits m) ⟨rfl, rfl⟩
  rw [Crowded, Crowded, hc, hb]

theorem removed (h : Evictions entry m m') (hm : IndexedPool H m) :
    ∃ gone, Removed m m' gone ∧ ∀ id, gone id → id ∈ m.evictable entry.feeRate := by
  induction h with
  | none => exact ⟨_, Removed.refl m, fun _ h => h.elim⟩
  | evict h hlowest hrate ih =>
    rename_i m' lowest
    obtain ⟨gone, hr, hsub⟩ := ih
    obtain ⟨gone', hr', -, hleast⟩ := removal_cut m' lowest.txid
    obtain ⟨e, he, rfl⟩ := lowest_entry (h.indexed hm) hlowest
    refine ⟨_, hr.trans hr', fun id hid => hid.elim (hsub id) (hleast _ ?_ ?_ id)⟩
    · exact mem_evictable_of_cheaper (mem_cheaper.mpr ⟨e, h.within _ e he, hrate⟩)
    · -- a link the evictions left was there before
      exact fun p c hp hc => evictable_closed hp ((hr.cut.down p c).mp hc).2.1

/-- What no eviction takes stays. -/
theorem outlasting_within (h : Evictions entry m m') (hm : IndexedPool H m) :
    Table.Within (m.outlasting entry.feeRate) m'.entries := by
  obtain ⟨gone, hr, hsub⟩ := h.removed hm
  intro id e he
  obtain ⟨hout, he⟩ := (get_outlasting m _ id e).mp he
  exact (hr.cut.entries id e).mpr ⟨fun hg => hout (hsub id hg), he⟩

/-- Where the loop gives up, all that it could take is gone. -/
theorem entries_eq (h : Evictions entry m m') (hm : IndexedPool H m) {lowest : PriorityKey}
    (hlowest : m'.priorityIndex.toList.head? = some (lowest, ())) (hrate : entry.feeRate ≤ lowest.feeRate) :
    m'.entries = m.outlasting entry.feeRate := by
  have hrates : ∀ (id : Hash256) (e : MempoolEntry), m'.entries[id]? = some e → entry.feeRate ≤ e.feeRate :=
    fun id e he => UInt64.le_trans hrate (lowest_le (h.indexed hm) hlowest he)
  obtain ⟨gone, hr, hsub⟩ := h.removed hm
  have hall : ∀ id ∈ m.evictable entry.feeRate, gone id := by
    refine evictable_within (fun id hid => ?_) hr.closed
    obtain ⟨e, he, hlt⟩ := mem_cheaper.mp hid
    by_contra hg
    exact absurd (hrates id e ((hr.cut.entries id e).mpr ⟨hg, he⟩)) (UInt64.not_le.mpr hlt)
  refine Table.ext fun id => Option.ext fun e => ?_
  rw [hr.cut.entries, get_outlasting]
  exact and_congr_left fun _ => not_congr ⟨hsub id, hall id⟩

end Evictions

/-- An eviction takes its key out of the index. -/
theorem removal_size_lt (hm : IndexedPool H m) {lowest : PriorityKey}
    (hlowest : m.priorityIndex.toList.head? = some (lowest, ())) :
    (m.removeTransactionAndDescendants lowest.txid).1.priorityIndex.size < m.priorityIndex.size := by
  have hm' : IndexedPool H (m.removeTransactionAndDescendants lowest.txid).1 := keptByDrop_indexed.removal lowest.txid hm
  obtain ⟨gone, hr, hgone, -⟩ := removal_cut m lowest.txid
  have hwithin : Table.Within (m.removeTransactionAndDescendants lowest.txid).1.priorityIndex m.priorityIndex := by
    rintro k ⟨⟩ hk
    obtain ⟨id, e, he, hkey⟩ := (hm'.priority k).mp hk
    exact (hm.priority k).mpr ⟨id, e, ((hr.cut.entries id e).mp he).2, hkey⟩
  refine hwithin.size_lt (k := lowest) (Table.mem_toList.mp (List.mem_of_mem_head? hlowest)) ?_
  refine Option.eq_none_iff_forall_not_mem.mpr fun _ hk => ?_
  obtain ⟨id, e, he, rfl⟩ := (hm'.priority lowest).mp hk
  have hid : e.txid = id := (hm'.keyed id e he).1
  exact ((hr.cut.entries id e).mp he).1 (hid ▸ hgone)

/-- Every eviction makes the index smaller, so the fuel lasts. -/
theorem makeRoom_outcome (hm : IndexedPool H m) (f : Nat) : ∀ {m' : Mempool}, Evictions entry m m' →
    m'.priorityIndex.size < f →
    Evictions entry m (makeRoom entry f m').1 ∧ Outcome entry (makeRoom entry f m').1 (makeRoom entry f m').2 := by
  induction f with
  | zero => intro m' _ hf; omega
  | succ f ih =>
    intro m' h hf
    unfold makeRoom
    split
    · rename_i hcrowded
      split
      · rename_i hnone
        exact ⟨h, .emptied hnone⟩
      · rename_i lowest u hlowest
        split
        · rename_i hrate
          have hsize := removal_size_lt (h.indexed hm) hlowest
          exact ih (h.evict hlowest hrate) (by omega)
        · rename_i hrate
          exact ⟨h, .full hcrowded hlowest (UInt64.not_lt.mp hrate)⟩
    · rename_i hroom
      exact ⟨h, .room hroom⟩

/-- From the start, with the fuel it is given. -/
theorem makeRoom_spec (hm : IndexedPool H m) (entry : MempoolEntry) :
    ∃ m' res, makeRoom entry (m.priorityIndex.size + 1) m = (m', res) ∧ Evictions entry m m' ∧ Outcome entry m' res := by
  obtain ⟨hev, hend⟩ := makeRoom_outcome hm (m.priorityIndex.size + 1) (Evictions.none : Evictions entry m m)
    (Nat.lt_succ_self _)
  exact ⟨_, _, rfl, hev, hend⟩

theorem makeRoom_error_iff (hm : IndexedPool H m) (entry : MempoolEntry) :
    (∃ e, (makeRoom entry (m.priorityIndex.size + 1) m).2 = .error e) ↔ m.StaysCrowded entry := by
  obtain ⟨m', res, heq, hev, hend⟩ := makeRoom_spec hm entry
  have hwithin := hev.outlasting_within hm
  rw [heq]
  constructor
  · rintro ⟨e, rfl⟩
    cases hend with
    | full hcrowded hlowest hrate =>
      obtain ⟨low, hlow, -⟩ := lowest_entry (hev.indexed hm) hlowest
      have hentries := hev.entries_eq hm hlowest hrate
      rw [hev.crowded_iff, hev.totalBytes_eq, hentries] at hcrowded
      exact ⟨Table.ne_empty_iff.mpr ⟨_, low, hentries ▸ hlow⟩, hcrowded⟩
  · rintro ⟨hne, hcrowded⟩
    cases hend with
    | room hroom =>
      refine absurd ((hev.crowded_iff _ _).mpr (hcrowded.mono hwithin.size_le ?_)) hroom
      have hle := hwithin.sumBy_le MempoolEntry.sizeBytes
      rw [hev.totalBytes_eq, bytesLeft, bytesLeft]
      omega
    | emptied hnone =>
      obtain ⟨id, e, he⟩ := Table.ne_empty_iff.mp hne
      exact absurd hnone (head_ne_none (hev.indexed hm) (hwithin id e he))
    | full hcrowded hlowest hrate => exact ⟨_, rfl⟩

/-- Where nothing is lower, the loop takes nothing. -/
theorem Evictions.eq_of_none_cheaper {m' : Mempool} (h : Evictions entry m m') (hm : IndexedPool H m)
    (hnone : m.cheaper entry.feeRate = []) : m' = m := by
  induction h with
  | none => rfl
  | evict h hlowest hrate ih =>
    rename_i m' lowest
    obtain ⟨e, he, rfl⟩ := lowest_entry (h.indexed hm) hlowest
    have hmem := mem_cheaper.mpr ⟨e, h.within _ e he, hrate⟩
    rw [hnone] at hmem
    cases hmem

section
variable {tx : Transaction} {utxos : UtxoSet} {verifier : AuthorizationVerifier} {now : UInt64} {parents : TxidSet}

theorem Admits.admit_error (h : Admits H m tx utxos verifier now entry parents) {m' : Mempool} {e : MempoolError}
    (hroom : makeRoom entry (m.priorityIndex.size + 1) m = (m', .error e)) :
    m.admitTransaction H tx utxos verifier now = (m', .error e) := by
  rw [admitTransaction, examine_ok_iff.mpr h]
  simp only [hroom]

theorem Admits.admit_ok (h : Admits H m tx utxos verifier now entry parents) {m' : Mempool}
    (hroom : makeRoom entry (m.priorityIndex.size + 1) m = (m', .ok ())) :
    m.admitTransaction H tx utxos verifier now = (m'.commitEntry entry parents, .ok entry.txid) := by
  rw [admitTransaction, examine_ok_iff.mpr h]
  simp only [hroom]

/-! ## What a refusal leaves -/

/-- The transaction passes the checks; something is lower than it, and what outlasts the
    evictions leaves no room. -/
def EvictsInVain (H : Hasher) (m : Mempool) (tx : Transaction) (utxos : UtxoSet) (verifier : AuthorizationVerifier)
    (now : UInt64) : Prop :=
  ∃ entry parents, Admits H m tx utxos verifier now entry parents ∧ m.cheaper entry.feeRate ≠ [] ∧ m.StaysCrowded entry

/-- In every run, an admission that is refused leaves the pool as it was, unless it evicts in
    vain. -/
theorem admission_atomic_iff {allowed : Mempool → PoolOp → Prop} (h : PoolRun H allowed m) (tx : Transaction)
    (utxos : UtxoSet) (verifier : AuthorizationVerifier) (now : UInt64) :
    (∀ m' e, m.admitTransaction H tx utxos verifier now = (m', .error e) → m' = m) ↔
      ¬m.EvictsInVain H tx utxos verifier now := by
  have hm : IndexedPool H m := h.indexed
  constructor
  · rintro hsame ⟨entry, parents, hadm, hcheaper, hstays⟩
    obtain ⟨e, herr⟩ := (makeRoom_error_iff hm entry).mpr hstays
    obtain ⟨m', res, heq, hev, hend⟩ := makeRoom_spec hm entry
    rw [heq] at herr
    cases herr
    cases hend with
    | full hcrowded hlowest hrate =>
      have hentries := hev.entries_eq hm hlowest hrate
      rw [hsame _ _ (hadm.admit_error heq)] at hentries
      -- one that is lower has left
      obtain ⟨id, hid⟩ := List.exists_mem_of_ne_nil _ hcheaper
      obtain ⟨e, he, -⟩ := mem_cheaper.mp hid
      rw [hentries] at he
      exact ((get_outlasting m _ id e).mp he).1 (mem_evictable_of_cheaper hid)
  · intro hvain m' e hadmit
    rcases admit_cases H m tx utxos verifier now with ⟨e', h⟩ | ⟨entry, parents, hadm, ⟨m₁, e', heq, h⟩ | ⟨m₁, heq, h⟩⟩
    · rw [h] at hadmit
      cases hadmit
      rfl
    · rw [h] at hadmit
      cases hadmit
      have hstays := (makeRoom_error_iff hm entry).mp ⟨e, by rw [heq]⟩
      obtain ⟨m₂, res, heq', hev, -⟩ := makeRoom_spec hm entry
      rw [heq] at heq'
      cases heq'
      by_contra hne
      exact hvain ⟨entry, parents, hadm, fun hnone => hne (hev.eq_of_none_cheaper hm hnone), hstays⟩
    · rw [h] at hadmit
      cases hadmit

end

/-! ### Two entries, and a third that is twice as long -/

/-- An empty pool with room for 200 bytes. -/
def shortPool : Mempool := Mempool.withConfig 10 200 0

def parentPool : Mempool := shortPool.step Blake3.digest (admitFunded parentTx)

/-- The two entries have 156 bytes. -/
def pairPool : Mempool := parentPool.step Blake3.digest (admitFunded otherTx)

/-- It leaves a fee of 3000 for its 147 bytes: more than the parent for a byte, less than the
    other, whose output it spends. -/
def longTx : Transaction :=
  ⟨transactionVersion1, [TxIn.new ⟨otherTx.txid Blake3.digest, 0⟩ [0x51]], [⟨5000, List.replicate 70 0x51⟩], 0⟩

theorem pairPool_run : PoolRun Blake3.digest (fun _ _ => True) pairPool :=
  .step (.step (.empty 10 200 0) (admitFunded parentTx) trivial) (admitFunded otherTx) trivial

set_option maxRecDepth 10000 in
/-- The parent is evicted, and then there is no room. -/
theorem evicted_in_vain : PoolRun Blake3.digest (fun _ _ => True) pairPool ∧ ∃ m' e,
    pairPool.admitTransaction Blake3.digest longTx funding (fun _ _ _ => .ok ()) 100 = (m', .error e) ∧ m' ≠ pairPool := by
  refine ⟨pairPool_run, (pairPool.admitTransaction Blake3.digest longTx funding (fun _ _ _ => .ok ()) 100).1,
    .mempoolFull 20408 25641, Prod.ext rfl ?_, fun hsame => ?_⟩
  · decide +kernel
  · have hsize : (pairPool.admitTransaction Blake3.digest longTx funding (fun _ _ _ => .ok ()) 100).1.entries.size ≠
        pairPool.entries.size := by decide +kernel
    exact hsize (by rw [hsame])

theorem admission_atomic_iff_pair :
    (∀ m' e, pairPool.admitTransaction Blake3.digest longTx funding (fun _ _ _ => .ok ()) 100 = (m', .error e) →
      m' = pairPool) ↔ ¬pairPool.EvictsInVain Blake3.digest longTx funding (fun _ _ _ => .ok ()) 100 :=
  admission_atomic_iff pairPool_run longTx funding (fun _ _ _ => .ok ()) 100

end Mempool

/-! ## The capacity -/

structure Mempool.WithinCapacity (m : Mempool) : Prop where
  count : m.entries.size ≤ m.maxCount
  bytes : m.totalBytes ≤ m.maxBytes

/-- The transaction passes the checks, has no room even alone, and every entry can be evicted
    for it. -/
def Mempool.Overfills (H : Hasher) (m : Mempool) (tx : Transaction) (utxos : UtxoSet) (verifier : AuthorizationVerifier)
    (now : UInt64) : Prop :=
  ∃ entry parents, Admits H m tx utxos verifier now entry parents ∧ m.Crowded entry 0 0 ∧ m.outlasting entry.feeRate = ∅

/-- No admission overfills the pool, where it is done. -/
def PoolOp.NoOverfill (H : Hasher) (m : Mempool) : PoolOp → Prop
  | .admitTx tx utxos verifier now => ¬m.Overfills H tx utxos verifier now
  | .remove _ => True
  | .connect _ _ => True
  | .reorg txs utxos verifier now => ∀ before tx after, txs = before ++ tx :: after →
      ¬(before.foldl (Mempool.takeBack H utxos verifier now) m).Overfills H tx utxos verifier now

namespace Mempool

theorem keptByDrop_capacity : KeptByDrop WithinCapacity where
  drop m txid h := by
    have hsize := (dropEntry_within m txid).size_le
    have hbytes := (keptByDrop_totalBytes m.totalBytes).drop m txid (Nat.le_refl _)
    obtain ⟨hcount, hmax⟩ := (keptByDrop_limits m).drop m txid ⟨rfl, rfl⟩
    refine ⟨?_, ?_⟩
    · rw [hcount]
      exact Nat.le_trans hsize h.count
    · rw [hmax]
      exact Nat.le_trans hbytes h.bytes
  links _ _ _ h := ⟨h.count, h.bytes⟩

/-- Not full before the commit, within capacity after it. -/
theorem capacity_commit (hcrowded : ¬m.Crowded entry m.entries.size m.totalBytes) (parents : TxidSet) :
    (m.commitEntry entry parents).WithinCapacity := by
  have hsize : (m.entries.insert entry.txid entry).size ≤ m.entries.size + 1 := Std.ExtTreeMap.size_insert_le
  unfold Crowded at hcrowded
  refine ⟨?_, ?_⟩
  · show (m.entries.insert entry.txid entry).size ≤ m.maxCount
    omega
  · show addBytes m.totalBytes entry.sizeBytes ≤ m.maxBytes
    omega

/-- In an empty pool only what has room alone stays within it. -/
theorem capacity_commit_iff (hm : IndexedPool H m) (hempty : m.entries = ∅) (parents : TxidSet) :
    (m.commitEntry entry parents).WithinCapacity ↔ ¬m.Crowded entry 0 0 := by
  have hbytes : m.totalBytes = 0 := by
    have hcounted := hm.counted
    rw [hempty, Table.sumBy_empty] at hcounted
    omega
  constructor
  · rintro ⟨hc, hb⟩ hcrowded
    have hsize : (m.entries.insert entry.txid entry).size ≤ m.maxCount := hc
    have hmax : addBytes m.totalBytes entry.sizeBytes ≤ m.maxBytes := hb
    have hone : 1 ≤ (m.entries.insert entry.txid entry).size :=
      Table.length_le_size (List.nodup_singleton entry.txid) (by simp)
    rw [hbytes] at hmax
    unfold Crowded at hcrowded
    omega
  · intro hcrowded
    refine capacity_commit (fun h => hcrowded ?_) parents
    rw [hempty, hbytes] at h
    exact h

section
variable {tx : Transaction} {utxos : UtxoSet} {verifier : AuthorizationVerifier} {now : UInt64} {parents : TxidSet}

theorem Admits.overfills_iff (h : Admits H m tx utxos verifier now entry parents) :
    m.Overfills H tx utxos verifier now ↔ m.Crowded entry 0 0 ∧ m.outlasting entry.feeRate = ∅ := by
  constructor
  · rintro ⟨entry', parents', h', hover⟩
    have heq := (examine_ok_iff.mpr h').symm.trans (examine_ok_iff.mpr h)
    cases heq
    exact hover
  · exact fun hover => ⟨entry, parents, h, hover⟩

/-- What would have room in an empty pool does not overfill this one. -/
theorem not_overfills (hcount : 0 < m.maxCount) (hbytes : tx.encodedSize ≤ m.maxBytes) :
    ¬m.Overfills H tx utxos verifier now := by
  rintro ⟨entry, parents, h, hcrowded, -⟩
  obtain ⟨-, -, hsize⟩ := h.entry_eq
  unfold Crowded addBytes at hcrowded
  omega

/-- A pool within its capacity leaves it by an admission exactly when that overfills it. -/
theorem admission_capacity_iff (hm : IndexedPool H m) (hcap : m.WithinCapacity) (tx : Transaction) (utxos : UtxoSet)
    (verifier : AuthorizationVerifier) (now : UInt64) :
    (m.admitTransaction H tx utxos verifier now).1.WithinCapacity ↔ ¬m.Overfills H tx utxos verifier now := by
  cases hex : m.examine H tx utxos verifier now with
  | error e =>
    rw [admitTransaction, hex]
    refine iff_of_true hcap fun hover => ?_
    obtain ⟨entry, parents, h, -⟩ := hover
    rw [examine_ok_iff.mpr h] at hex
    cases hex
  | ok found =>
    obtain ⟨entry, parents⟩ := found
    have h : Admits H m tx utxos verifier now entry parents := examine_ok_iff.mp hex
    obtain ⟨m', res, heq, hev, hend⟩ := makeRoom_spec hm entry
    rw [h.overfills_iff]
    cases hend with
    | room hroom =>
      rw [h.admit_ok heq]
      refine iff_of_true (capacity_commit hroom parents) fun hover => hroom ?_
      exact ((hev.crowded_iff 0 0).mpr hover.1).mono (Nat.zero_le _) (Nat.zero_le _)
    | emptied hnone =>
      have hempty : m'.entries = ∅ := by
        by_contra hne
        obtain ⟨id, e, he⟩ := Table.ne_empty_iff.mp hne
        exact head_ne_none (hev.indexed hm) he hnone
      have hout : m.outlasting entry.feeRate = ∅ := by
        by_contra hne
        obtain ⟨id, e, he⟩ := Table.ne_empty_iff.mp hne
        exact head_ne_none (hev.indexed hm) (hev.outlasting_within hm id e he) hnone
      rw [h.admit_ok heq, capacity_commit_iff (hev.indexed hm) hempty, hev.crowded_iff, and_iff_left hout]
    | full hcrowded hlowest hrate =>
      rw [h.admit_error heq]
      obtain ⟨low, hlow, -⟩ := lowest_entry (hev.indexed hm) hlowest
      refine iff_of_true (hev.keeps keptByDrop_capacity hcap) fun hover => ?_
      rw [hev.entries_eq hm hlowest hrate, hover.2, Table.get_empty] at hlow
      cases hlow

theorem takeBack_capacity (hm : IndexedPool H m) (hcap : m.WithinCapacity)
    (hover : ¬m.Overfills H tx utxos verifier now) : (m.takeBack H utxos verifier now tx).WithinCapacity := by
  unfold takeBack
  split
  · exact hcap
  · exact (admission_capacity_iff hm hcap tx utxos verifier now).mpr hover

/-- A reorganisation takes the transactions back one after the other. -/
theorem reorg_capacity (txs : List Transaction) : ∀ {m : Mempool}, IndexedPool H m → m.WithinCapacity →
    PoolOp.NoOverfill H m (.reorg txs utxos verifier now) →
      (txs.foldl (takeBack H utxos verifier now) m).WithinCapacity := by
  induction txs with
  | nil => intro m _ hcap _; exact hcap
  | cons tx txs ih =>
    intro m hm hcap hover
    refine ih (indexed_takeBack tx utxos verifier now hm) (takeBack_capacity hm hcap (hover [] tx txs rfl)) ?_
    intro before tx' after htxs
    exact hover (tx :: before) tx' after (by rw [htxs]; rfl)

end

end Mempool

/-- In every run in which no admission overfills the pool, it is never over its capacity. -/
theorem pool_within_capacity (h : PoolRun H (PoolOp.NoOverfill H) m) :
    m.entries.size ≤ m.maxCount ∧ m.totalBytes ≤ m.maxBytes := by
  have hboth : IndexedPool H m ∧ m.WithinCapacity := by
    induction h with
    | empty maxCount maxBytes minFeeRate =>
      exact ⟨(Mempool.coherent_withConfig maxCount maxBytes minFeeRate).indexed, Nat.zero_le _, Nat.zero_le _⟩
    | step h op hop ih =>
      refine ⟨(h.step op hop).indexed, ?_⟩
      obtain ⟨hm, hcap⟩ := ih
      cases op with
      | admitTx tx utxos verifier now => exact (Mempool.admission_capacity_iff hm hcap tx utxos verifier now).mpr hop
      | remove txid => exact Mempool.keptByDrop_capacity.removal txid hcap
      | connect block utxos => exact Mempool.keptByDrop_capacity.onBlockConnected block utxos hcap
      | reorg txs utxos verifier now =>
        rw [Mempool.step, Mempool.onReorg_fst]
        exact Mempool.reorg_capacity txs hm hcap hop
  exact ⟨hboth.2.count, hboth.2.bytes⟩

set_option maxRecDepth 10000 in
theorem pool_within_capacity_parent : Mempool.parentPool.entries.size ≤ Mempool.parentPool.maxCount ∧
    Mempool.parentPool.totalBytes ≤ Mempool.parentPool.maxBytes :=
  pool_within_capacity (.step (.empty 10 200 0) (admitFunded parentTx)
    (Mempool.not_overfills (by decide) (by decide +kernel)) : PoolRun Blake3.digest (PoolOp.NoOverfill Blake3.digest) _)

set_option maxRecDepth 10000 in
/-- An empty pool for 50 bytes takes a transaction of 78. -/
theorem empty_pool_overfilled : ∃ m : Mempool, PoolRun Blake3.digest (fun _ _ => True) m ∧
    ¬(m.entries.size ≤ m.maxCount ∧ m.totalBytes ≤ m.maxBytes) := by
  refine ⟨(Mempool.withConfig 10 50 0).step Blake3.digest (admitFunded parentTx), .step (.empty 10 50 0) _ trivial, ?_⟩
  decide +kernel

end Scytale
