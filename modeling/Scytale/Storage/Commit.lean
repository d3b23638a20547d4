/-
  Scytale.Storage.Commit — committing a block against applying it in memory
  (crates/scytale-storage/src/engine.rs, crates/scytale-core/src/utxo.rs).

  The storage keeps its own loops over inputs and outputs. On tables that hold the entries
  of a set the block applies to, every lookup of a spent output finds it, so the loops do
  not fail, and what they write is the block's delta.
  - `storeTransactions_of_proper`: the loop over the transactions does not fail.
  - `writeRecords_of_readable` / `writeRecords_of_unreadable`: the address records go in
    exactly when the rows they are put behind can be read.
  - `commit_refines_apply`: the block is committed, and the tables hold the set it leaves.
-/
import Scytale.Storage.Delta
import Scytale.Core.Genesis

namespace Scytale

open Lib

namespace StorageEngine

variable {H : Hasher}

/-! ## The loops do not fail -/

theorem spendInputs_of_unspent (H : Hasher) (txid : Hash256) {os : List OutPoint} : ∀ d : Draft, os.Nodup →
    (∀ o ∈ os, ∃ e, d.db.utxos[o]? = some e) → ∃ d', spendInputs H txid d os = .ok d' := by
  induction os with
  | nil => intro d _ _; exact ⟨d, rfl⟩
  | cons o os ih =>
    intro d hnd hall
    obtain ⟨ho, hnd⟩ := List.nodup_cons.mp hnd
    obtain ⟨e, he⟩ := hall o List.mem_cons_self
    have hspent : spentOutput d.db o = .ok (some e.output) := by
      simp only [spentOutput, he]
    unfold spendInputs
    rw [hspent]
    refine ih _ hnd fun a ha => ?_
    obtain ⟨v, hv⟩ := hall a (List.mem_cons_of_mem _ ha)
    have hne : o ≠ a := fun h => ho (h ▸ ha)
    refine ⟨v, ?_⟩
    show (Undo.take (d.db.utxos, d.undo) o).1[a]? = some v
    rw [Undo.take_fst, Table.get_erase, if_neg hne]
    exact hv

/-- The first transaction of a block spends nothing. -/
theorem storeTransaction_coinbase {tx : Transaction} (hcb : tx.isCoinbase = true) (hash : Hash256) (height : UInt64)
    (d : Draft) : storeTransaction H hash height d tx = .ok (createOutputs H height tx { d with db := { d.db with
      transactions := d.db.transactions.insert (tx.txid H) tx
      txConfirmIndex := d.db.txConfirmIndex.insert (tx.txid H) (hash, height) } }) := by
  simp only [storeTransaction, hcb, if_true, spendInputs]

theorem storeTransaction_of_proper (hash : Hash256) (height : UInt64) {d : Draft} {tx : Transaction}
    (ht : Proper H d.db.utxos tx) : ∃ d', storeTransaction H hash height d tx = .ok d' := by
  obtain ⟨d₁, h₁⟩ := spendInputs_of_unspent H (tx.txid H) { d with db := { d.db with
    transactions := d.db.transactions.insert (tx.txid H) tx
    txConfirmIndex := d.db.txConfirmIndex.insert (tx.txid H) (hash, height) } } ht.nodup ht.spends
  rw [Transaction.spends] at h₁
  exact ⟨createOutputs H height tx d₁, by simp only [storeTransaction, h₁]⟩

/-- The loop over the transactions of a block that is proper for the tables. -/
theorem storeTransactions_of_proper (hash : Hash256) {height : UInt64} {txs : List Transaction} : ∀ {d : Draft},
    ProperBlock H height (d.db.utxos, d.undo) txs → ∃ d', storeTransactions H hash height d txs = .ok d' := by
  induction txs with
  | nil => intro d _; exact ⟨d, rfl⟩
  | cons tx txs ih =>
    intro d h
    obtain ⟨d₁, h₁⟩ := storeTransaction_of_proper hash height (h [] tx txs rfl)
    have hrest : ProperBlock H height (d₁.db.utxos, d₁.undo) txs := by
      rw [(storeTransaction_ok h₁).1]
      exact h.tail [tx]
    obtain ⟨d₂, h₂⟩ := ih hrest
    exact ⟨d₂, by simp only [storeTransactions, h₁, h₂]⟩

theorem storeTransactions_of_applyBlock (hash : Hash256) {height fees : UInt64} {txs : List Transaction} (d : Draft)
    {s s' : UtxoSet} (hsame : d.db.utxos = s.entries) (h : UtxoSet.applyBlock H s txs height = .ok (s', fees)) :
    ∃ d', storeTransactions H hash height d txs = .ok d' :=
  storeTransactions_of_proper hash (hsame ▸ (applyBlock_proper h d.undo).1)

/-! ## The address records -/

/-- The records of one address, in their order. -/
def recordsOf (records : List (Bytes × AddressTxRecord)) (address : Bytes) : List AddressTxRecord :=
  (records.filter fun r => r.1 = address).map (·.2)

theorem get_groupRecords (records : List (Bytes × AddressTxRecord)) (address : Bytes) :
    (groupRecords records)[address]? =
      if address ∈ records.map (·.1) then some (recordsOf records address) else none := by
  induction records using List.reverseRecOn with
  | nil => exact Table.get_empty _
  | append_singleton records r ih =>
    have hstep : groupRecords (records ++ [r]) =
        (groupRecords records).insert r.1 ((groupRecords records)[r.1]?.getD [] ++ [r.2]) := by
      simp [groupRecords]
    rw [hstep, Table.get_insert, List.map_append, recordsOf, List.filter_append, List.map_append]
    by_cases e : r.1 = address
    · subst e
      have hold : (groupRecords records)[r.1]?.getD [] = recordsOf records r.1 := by
        rw [ih]
        split
        · rfl
        · rename_i hn
          -- no record so far: the row is empty
          have hnone : records.filter (fun q => decide (q.1 = r.1)) = [] :=
            List.filter_eq_nil_iff.mpr fun q hq => by
              simpa using fun e : q.1 = r.1 => hn (List.mem_map.mpr ⟨q, hq, e⟩)
          simp [recordsOf, hnone]
      rw [if_pos rfl, if_pos (by simp), hold]
      simp [recordsOf]
    · have hmem : address ∈ records.map (·.1) ++ [r].map (·.1) ↔ address ∈ records.map (·.1) := by
        rw [List.mem_append, List.map_singleton, List.mem_singleton]
        exact or_iff_left fun h => e h.symm
      rw [if_neg e, ih]
      simp only [hmem]
      simp [recordsOf, e]

theorem mem_keys_groupRecords {records : List (Bytes × AddressTxRecord)} {address : Bytes}
    (h : address ∈ records.map (·.1)) : address ∈ (groupRecords records).toList.map (·.1) := by
  have hrow := get_groupRecords records address
  rw [if_pos h] at hrow
  exact List.mem_map.mpr ⟨_, Table.mem_toList.mpr hrow, rfl⟩

/-- A row the reader takes back: its count is not above the limit for vectors. -/
def Readable (row : List AddressTxRecord) : Prop := row.length ≤ maxVectorLength

theorem makeAddressTxKey_inj {a b : Bytes} {height : UInt64}
    (h : makeAddressTxKey a height = makeAddressTxKey b height) : a = b := List.append_cancel_right h

theorem writeRecords_of_readable (height : UInt64) {l : List (Bytes × List AddressTxRecord)} :
    ∀ index : Table Bytes (List AddressTxRecord), (l.map (·.1)).Nodup →
      (∀ p ∈ l, ∀ row, index[makeAddressTxKey p.1 height]? = some row → Readable row) →
      ∃ index', writeRecords height index l = .ok index' := by
  induction l with
  | nil => intro index _ _; exact ⟨index, rfl⟩
  | cons p l ih =>
    obtain ⟨address, new⟩ := p
    intro index hnd hrow
    obtain ⟨ha, hnd⟩ := List.nodup_cons.mp hnd
    -- the rows of the other addresses are not touched
    have hrest : ∀ v, ∀ q ∈ l, ∀ row, (index.insert (makeAddressTxKey address height) v)[makeAddressTxKey q.1 height]? =
        some row → Readable row := by
      intro v q hq row hr
      have hne : makeAddressTxKey address height ≠ makeAddressTxKey q.1 height := fun e =>
        ha (List.mem_map.mpr ⟨q, hq, (makeAddressTxKey_inj e).symm⟩)
      rw [Table.get_insert_ne _ _ hne] at hr
      exact hrow q (List.mem_cons_of_mem _ hq) row hr
    unfold writeRecords
    simp only
    cases hi : index[makeAddressTxKey address height]? with
    | none => exact ih _ hnd (hrest new)
    | some old =>
      have hold : Readable old := hrow _ List.mem_cons_self old hi
      simp only [if_neg (Nat.not_lt.mpr hold)]
      exact ih _ hnd (hrest (old ++ new))

theorem writeRecords_of_unreadable {height : UInt64} {l : List (Bytes × List AddressTxRecord)} :
    ∀ {index : Table Bytes (List AddressTxRecord)} {row : List AddressTxRecord} {address : Bytes},
      (l.map (·.1)).Nodup → address ∈ l.map (·.1) → index[makeAddressTxKey address height]? = some row → ¬Readable row →
      writeRecords height index l = .error .serialization := by
  induction l with
  | nil => intro index row address _ hm; cases hm
  | cons p l ih =>
    obtain ⟨first, new⟩ := p
    intro index row address hnd hm hrow hlong
    obtain ⟨ha, hnd⟩ := List.nodup_cons.mp hnd
    unfold writeRecords
    simp only
    by_cases e : first = address
    · subst e
      rw [hrow]
      simp only [if_pos (Nat.not_le.mp hlong)]
    · have hne : makeAddressTxKey first height ≠ makeAddressTxKey address height := fun h => e (makeAddressTxKey_inj h)
      have hm : address ∈ l.map (·.1) := (List.mem_cons.mp hm).resolve_left fun h => e h.symm
      have hrest : ∀ v, writeRecords height (index.insert (makeAddressTxKey first height) v) l = .error .serialization :=
        fun v => ih hnd hm (by rw [Table.get_insert_ne _ _ hne]; exact hrow) hlong
      cases index[makeAddressTxKey first height]? with
      | none => exact hrest new
      | some old =>
        simp only
        split
        · rfl
        · exact hrest (old ++ new)

/-- What is written: a new row, or the old one with the new records behind. -/
theorem writeRecords_cons {height : UInt64} {address : Bytes} {new : List AddressTxRecord}
    {l : List (Bytes × List AddressTxRecord)} {index index' : Table Bytes (List AddressTxRecord)}
    (h : writeRecords height index ((address, new) :: l) = .ok index') :
    writeRecords height (index.insert (makeAddressTxKey address height)
      (index[makeAddressTxKey address height]?.getD [] ++ new)) l = .ok index' := by
  unfold writeRecords at h
  simp only at h
  split at h
  · rename_i hnone
    rw [hnone]
    exact h
  · rename_i old hold
    split at h
    · cases h
    · rw [hold]
      exact h

theorem get_writeRecords_other {height : UInt64} {key : Bytes} {l : List (Bytes × List AddressTxRecord)} :
    ∀ {index index' : Table Bytes (List AddressTxRecord)}, writeRecords height index l = .ok index' →
      (∀ p ∈ l, makeAddressTxKey p.1 height ≠ key) → index'[key]? = index[key]? := by
  induction l with
  | nil => intro index index' h _; cases h; rfl
  | cons p l ih =>
    intro index index' h hne
    rw [ih (writeRecords_cons h) fun q hq => hne q (List.mem_cons_of_mem _ hq)]
    exact Table.get_insert_ne _ _ (hne p List.mem_cons_self)

theorem get_writeRecords {height : UInt64} {address : Bytes} {new : List AddressTxRecord}
    {l : List (Bytes × List AddressTxRecord)} : ∀ {index index' : Table Bytes (List AddressTxRecord)},
      (l.map (·.1)).Nodup → writeRecords height index l = .ok index' → (address, new) ∈ l →
      index'[makeAddressTxKey address height]? = some (index[makeAddressTxKey address height]?.getD [] ++ new) := by
  induction l with
  | nil => intro index index' _ _ hm; cases hm
  | cons p l ih =>
    intro index index' hnd h hm
    obtain ⟨hp, hnd⟩ := List.nodup_cons.mp hnd
    have h' := writeRecords_cons h
    rcases List.mem_cons.mp hm with rfl | hm
    · rw [get_writeRecords_other h' fun q hq e => hp (List.mem_map.mpr ⟨q, hq, makeAddressTxKey_inj e⟩)]
      exact Table.get_insert_self _ _ _
    · have hne : makeAddressTxKey p.1 height ≠ makeAddressTxKey address height := fun e =>
        hp (List.mem_map.mpr ⟨_, hm, (makeAddressTxKey_inj e).symm⟩)
      rw [ih hnd h' hm, Table.get_insert_ne _ _ hne]

/-- The records of a block, written behind the rows that are there. -/
theorem get_writeRecords_grouped {height : UInt64} {records : List (Bytes × AddressTxRecord)}
    {index index' : Table Bytes (List AddressTxRecord)}
    (h : writeRecords height index (groupRecords records).toList = .ok index') (address : Bytes) :
    index'[makeAddressTxKey address height]? = if address ∈ records.map (·.1)
      then some (index[makeAddressTxKey address height]?.getD [] ++ recordsOf records address)
      else index[makeAddressTxKey address height]? := by
  have hrow := get_groupRecords records address
  split
  · rename_i hm
    rw [if_pos hm] at hrow
    exact get_writeRecords (Table.nodup_keys _) h (Table.mem_toList.mpr hrow)
  · rename_i hm
    rw [if_neg hm] at hrow
    refine get_writeRecords_other h fun p hp e => ?_
    obtain rfl := makeAddressTxKey_inj e
    rw [Table.mem_toList.mp hp] at hrow
    cases hrow

/-! ## Committing -/

/-- For every storage that holds the entries of a set, and every block that can be encoded
    and applies to the set: if the address rows it already has at the height can be read,
    the block is committed, and the table holds exactly the entries of the set the block
    leaves. -/
theorem commit_refines_apply {db : StorageEngine} {s s' : UtxoSet} {block : Block} {height fees : UInt64}
    (work : CumulativeWork) (hsame : db.utxos = s.entries) (henc : block.encodable = true)
    (hap : UtxoSet.applyBlock H s block.transactions height = .ok (s', fees))
    (hrows : ∀ address row, db.addressTxIndex[makeAddressTxKey address height]? = some row → Readable row) :
    ∃ db', db.commitBlock H block height work = .ok db' ∧ db'.utxos = s'.entries := by
  obtain ⟨d, hd⟩ := storeTransactions_of_applyBlock (block.header.hash H) ⟨{ db with
      blocks := db.blocks.insert (block.header.hash H) block
      blockHeightIndex := db.blockHeightIndex.insert height (block.header.hash H) }, Undo.empty, []⟩ hsame hap
  have hindex : d.db.addressTxIndex = db.addressTxIndex := by
    rw [(storeTransactions_ok hd).2]
  obtain ⟨index, hwrite⟩ := writeRecords_of_readable height d.db.addressTxIndex
    (Table.nodup_keys (groupRecords d.records)) fun p _ row hr => hrows p.1 row (by rw [← hindex]; exact hr)
  obtain ⟨db₁, hconnect⟩ : ∃ db₁, db.connectBlock H block height work = .ok db₁ := by
    simp only [connectBlock, henc, hd, hwrite, Bool.not_true, Bool.false_eq_true, if_false]
    exact ⟨_, rfl⟩
  refine ⟨db₁.setTip (block.header.hash H) height, by simp only [commitBlock, hconnect], ?_⟩
  obtain ⟨-, -, -, -, rfl⟩ := connectBlock_ok hconnect
  show (delta H height (db.utxos, Undo.empty) block.transactions).1 = s'.entries
  rw [hsame]
  exact (applyBlock_delta hap).1

/-- The genesis block on a fresh database. -/
theorem commit_refines_apply_genesis : ∃ s' db', UtxoSet.applyBlock Blake3.digest UtxoSet.new
      (buildGenesisBlock Blake3.digest 0x1d00ffff).transactions 0 = .ok (s', 0) ∧
    empty.commitBlock Blake3.digest (buildGenesisBlock Blake3.digest 0x1d00ffff) 0 CumulativeWork.zero = .ok db' ∧
      db'.utxos = s'.entries := by
  obtain ⟨s', hap, -⟩ := genesis_applies Blake3.digest 0x1d00ffff
  have hempty : empty.utxos = UtxoSet.new.entries := rfl
  obtain ⟨db', hcommit, hsame⟩ := commit_refines_apply (H := Blake3.digest)
    CumulativeWork.zero hempty (by decide) hap (fun address row h => by rw [empty, Table.get_empty] at h; cases h)
  exact ⟨s', db', hap, hcommit, hsame⟩

/-- The address the founder's allocation is indexed under. -/
def founderAddress : Bytes := (founderLockingScript.drop 3).take 32

/-- A database that holds nothing but one row, one record too long to be read back. -/
def crowdedStorage : StorageEngine :=
  { empty with
    addressTxIndex := (∅ : Table Bytes (List AddressTxRecord)).insert (makeAddressTxKey founderAddress 0)
      (List.replicate (maxVectorLength + 1) ⟨Hash256.zero, false, true, 1, none⟩) }

theorem crowded_row : crowdedStorage.addressTxIndex[makeAddressTxKey founderAddress 0]? =
    some (List.replicate (maxVectorLength + 1) ⟨Hash256.zero, false, true, 1, none⟩) := Table.get_insert_self _ _ _

/-- The genesis block pays the founder, so the founder's row is among those extended. -/
theorem founder_recorded (txid : Hash256) :
    founderAddress ∈ (outputRecords H txid buildGenesisCoinbase.outputs).map (·.1) := by
  have hfirst : extractAddressFromLockingCondition H founderLockingScript = some founderAddress := rfl
  simp only [outputRecords, buildGenesisCoinbase, Transaction.newCoinbase, List.filterMap_cons, hfirst, Option.map_some,
    List.map_cons]
  exact List.mem_cons_self

/-- A database that already has a row of the founder's at height 0, and cannot read it. -/
theorem genesis_not_committed {db : StorageEngine} {row : List AddressTxRecord}
    (hrow : db.addressTxIndex[makeAddressTxKey founderAddress 0]? = some row) (hlong : ¬Readable row) (bits : UInt32)
    (work : CumulativeWork) : db.commitBlock H (buildGenesisBlock H bits) 0 work = .error .serialization := by
  have henc : (buildGenesisBlock H bits).encodable = true := rfl
  have hcb : buildGenesisCoinbase.isCoinbase = true := by decide
  have htxs : (buildGenesisBlock H bits).transactions = [buildGenesisCoinbase] := rfl
  have hwrite : writeRecords 0 db.addressTxIndex (groupRecords (outputRecords H (buildGenesisCoinbase.txid H)
      buildGenesisCoinbase.outputs)).toList = .error .serialization :=
    writeRecords_of_unreadable (Table.nodup_keys _) (mem_keys_groupRecords (founder_recorded _)) hrow hlong
  simp only [commitBlock, connectBlock, henc, htxs, Bool.not_true, Bool.false_eq_true, if_false, storeTransactions,
    storeTransaction_coinbase (H := H) hcb, createOutputs, List.nil_append, hwrite]

/-- The genesis block applies to the empty set, which the storage holds, and is not
    committed. -/
theorem commit_stopped_by_index : crowdedStorage.utxos = UtxoSet.new.entries ∧
    (buildGenesisBlock Blake3.digest 0x1d00ffff).encodable = true ∧
    (∃ s', UtxoSet.applyBlock Blake3.digest UtxoSet.new
      (buildGenesisBlock Blake3.digest 0x1d00ffff).transactions 0 = .ok (s', 0)) ∧
    crowdedStorage.commitBlock Blake3.digest (buildGenesisBlock Blake3.digest 0x1d00ffff) 0 CumulativeWork.zero =
      .error .serialization := by
  obtain ⟨s', hap, -⟩ := genesis_applies Blake3.digest 0x1d00ffff
  refine ⟨rfl, rfl, ⟨s', hap⟩, genesis_not_committed crowded_row ?_ _ _⟩
  rw [Readable, List.length_replicate]
  omega

end StorageEngine

end Scytale
