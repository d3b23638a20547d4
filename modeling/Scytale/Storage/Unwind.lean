/-
  Scytale.Storage.Unwind — committing a block and unwinding it
  (crates/scytale-storage/src/engine.rs).

  `unwind_block` puts back the unspent outputs from the undo record; of the other tables it
  erases what a commit writes, whatever was there before it.
  - `recorded_touched_iff`: the addresses a commit records against those an unwind finds again.
  - `eraseAll_writeRecords_iff`: the rows of the address index.
  - `unwind_undoes_commit_iff`: when the tables and the tip are as they were.
-/
import Scytale.Storage.Stepwise
import Scytale.Storage.Records

namespace Scytale

open Lib StorageEngine

variable {H : Hasher}

section
variable {height : UInt64} {m : Table OutPoint UtxoEntry} {txs : List Transaction}

/-! ## The address rows -/

/-- A transaction has records under the addresses of the outputs it spends and makes. -/
def Recorded (H : Hasher) (unspent : Table OutPoint UtxoEntry) (t : Transaction) (address : Bytes) : Prop :=
  (∃ o ∈ t.spends, ∃ e, unspent[o]? = some e ∧ e.output.Pays H address) ∨ ∃ out ∈ t.outputs, out.Pays H address

theorem storeTransaction_recorded {hash : Hash256} {d d' : Draft} {t : Transaction} (ht : Proper H d.db.utxos t)
    (h : storeTransaction H hash height d t = .ok d') (address : Bytes) :
    address ∈ d'.records.map (·.1) ↔ address ∈ d.records.map (·.1) ∨ Recorded H d.db.utxos t address := by
  simp only [storeTransaction] at h
  split at h
  · cases h
  · rename_i d₁ h₁
    cases h
    have hrec := spendInputs_records (fun o => (d.db.utxos[o]?).map UtxoEntry.output) ht.nodup (fun o ho => by
      obtain ⟨e, he⟩ := ht.spends o ho
      exact ⟨e, he, by rw [he]; rfl⟩) h₁
    show address ∈ (d₁.records ++ outputRecords H (t.txid H) t.outputs).map (·.1) ↔ _
    rw [hrec, List.map_append, List.mem_append, mem_outputRecords, List.map_append, List.mem_append, or_assoc, Recorded]
    refine or_congr_right (or_congr_left ?_)
    rw [List.map_flatMap, List.mem_flatMap]
    simp only [mem_inputRecords, Option.map_eq_some_iff]
    refine exists_congr fun o => and_congr_right fun _ => ?_
    constructor
    · rintro ⟨out, ⟨e, he, rfl⟩, ha⟩
      exact ⟨e, he, ha⟩
    · rintro ⟨e, he, ha⟩
      exact ⟨_, ⟨e, he, rfl⟩, ha⟩

theorem storeTransactions_recorded {hash : Hash256} {txs : List Transaction} : ∀ {d d' : Draft},
    ProperBlock H height (d.db.utxos, d.undo) txs → storeTransactions H hash height d txs = .ok d' → ∀ address,
    (address ∈ d'.records.map (·.1) ↔ address ∈ d.records.map (·.1) ∨ ∃ before t after, txs = before ++ t :: after ∧
      Recorded H (delta H height (d.db.utxos, d.undo) before).1 t address) := by
  induction txs with
  | nil =>
    intro d d' _ h address
    cases h
    simp
  | cons t txs ih =>
    intro d d' hp h address
    unfold storeTransactions at h
    split at h
    · cases h
    · rename_i d₁ h₁
      have ht : Proper H d.db.utxos t := hp [] t txs rfl
      obtain ⟨hdelta, -⟩ := storeTransaction_ok h₁
      have hp₁ : ProperBlock H height (d₁.db.utxos, d₁.undo) txs := by
        rw [hdelta]
        exact hp.tail [t]
      rw [ih hp₁ h, storeTransaction_recorded ht h₁, or_assoc]
      refine or_congr_right ?_
      constructor
      · rintro (hrec | ⟨before, t', after, rfl, hrec⟩)
        · exact ⟨[], t, txs, rfl, hrec⟩
        · rw [hdelta] at hrec
          exact ⟨t :: before, t', after, rfl, hrec⟩
      · rintro ⟨before, t', after, htxs, hrec⟩
        cases before with
        | nil =>
          cases htxs
          exact .inl hrec
        | cons b before =>
          cases htxs
          refine .inr ⟨before, t', after, rfl, ?_⟩
          rw [hdelta]
          exact hrec

theorem exists_first_spend {o : OutPoint} (h : ∃ t ∈ txs, o ∈ t.spends) :
    ∃ before t after, txs = before ++ t :: after ∧ o ∈ t.spends ∧ ∀ t' ∈ before, o ∉ t'.spends := by
  induction txs with
  | nil => simp at h
  | cons t txs ih =>
    by_cases ht : o ∈ t.spends
    · exact ⟨[], t, txs, rfl, ht, by simp⟩
    · obtain ⟨before, t', after, rfl, ho, hfirst⟩ := ih <| by
        obtain ⟨t', ht', ho⟩ := h
        rcases List.mem_cons.mp ht' with rfl | ht'
        · exact absurd ho ht
        · exact ⟨t', ht', ho⟩
      exact ⟨t :: before, t', after, rfl, ho, List.forall_mem_cons.mpr ⟨ht, hfirst⟩⟩

/-- What was there stays until it is spent first. -/
theorem get_delta_of_unspent (h : ProperBlock H height (m, Undo.empty) txs) {o : OutPoint} {e : UtxoEntry} (he : m[o]? = some e)
    (ho : ∀ t ∈ txs, o ∉ t.spends) : (delta H height (m, Undo.empty) txs).1[o]? = some e := by
  have hlog := logged_delta h
  have htaken : (delta H height (m, Undo.empty) txs).2.taken o = none := taken_delta_of_unspent h ho
  by_cases hc : o ∈ (delta H height (m, Undo.empty) txs).2.created
  · rw [hlog.created o hc htaken] at he
    cases he
  · rw [hlog.kept o hc htaken, he]

/-- All that a block records is found again exactly when the outputs are that it spends and
    that were there before it. -/
theorem recorded_touched_iff (db : StorageEngine) {block : Block} (h : ProperBlock H height (m, Undo.empty) block.transactions) :
    (∀ before t after, block.transactions = before ++ t :: after → ∀ address,
      Recorded H (delta H height (m, Undo.empty) before).1 t address → address ∈ touchedAddresses H db block) ↔
    ∀ t ∈ block.transactions, ∀ o ∈ t.spends, ∀ e, m[o]? = some e → ∀ address, e.output.Pays H address →
      address ∈ touchedAddresses H db block := by
  constructor
  · intro hall t ht o ho e he address ha
    obtain ⟨before, t', after, htxs, ho', hfirst⟩ := exists_first_spend ⟨t, ht, ho⟩
    have hbefore : ProperBlock H height (m, Undo.empty) before := by
      rw [htxs] at h
      exact h.init
    exact hall before t' after htxs address (.inl ⟨o, ho', e, get_delta_of_unspent hbefore he hfirst, ha⟩)
  · intro hall before t after htxs address hrec
    have ht : t ∈ block.transactions := by simp [htxs]
    rcases hrec with ⟨o, ho, e, he, ha⟩ | ⟨out, hout, ha⟩
    · have hcreated := get_delta he
      cases hlast : lastCreated H height before o with
      | none =>
        rw [hlast, Option.none_or] at hcreated
        exact hall t ht o ho e hcreated address ha
      | some e' =>
        -- an output of an earlier transaction: touched as an output
        rw [hlast, Option.some_or] at hcreated
        cases hcreated
        obtain ⟨earlier, hearlier, hcreated⟩ := List.mem_flatMap.mp (Table.mem_of_lastOf hlast)
        obtain ⟨j, -, hout, -⟩ := createdFrom_output _ hcreated
        refine mem_touchedAddresses.mpr ⟨earlier, by rw [htxs]; exact List.mem_append_left _ hearlier, .inl ⟨e.output, ?_, ha⟩⟩
        exact List.mem_of_getElem? hout
    · exact mem_touchedAddresses.mpr ⟨t, ht, .inl ⟨out, hout, ha⟩⟩

/-- The rows a block wrote and rows that are erased again. -/
theorem eraseAll_writeRecords_iff {records : List (Bytes × AddressTxRecord)} {index index' : Table Bytes (List AddressTxRecord)}
    (h : writeRecords height index (groupRecords records).toList = .ok index') (addresses : List Bytes) :
    Table.eraseAll index' (addresses.map fun a => makeAddressTxKey a height) = index ↔
      (∀ a ∈ addresses, index[makeAddressTxKey a height]? = none) ∧ ∀ a ∈ records.map (·.1), a ∈ addresses := by
  constructor
  · intro heq
    have hkey : ∀ a, makeAddressTxKey a height ∈ addresses.map (fun a => makeAddressTxKey a height) ↔ a ∈ addresses := by
      intro a
      refine ⟨fun hm => ?_, fun hm => List.mem_map.mpr ⟨a, hm, rfl⟩⟩
      obtain ⟨b, hb, hkey⟩ := List.mem_map.mp hm
      rwa [makeAddressTxKey_inj hkey] at hb
    refine ⟨fun a ha => ?_, fun a ha => ?_⟩
    · rw [← heq, Table.get_eraseAll, if_pos ((hkey a).mpr ha)]
    · by_contra hno
      -- a row that is not erased is longer than before
      have hrow := get_writeRecords_grouped h a
      have hsame : index'[makeAddressTxKey a height]? = index[makeAddressTxKey a height]? := by
        rw [← heq, Table.get_eraseAll, if_neg fun hm => hno ((hkey a).mp hm)]
      obtain ⟨r, hr, rfl⟩ := List.mem_map.mp ha
      have hne : recordsOf records r.1 ≠ [] := by
        have hm : r.2 ∈ recordsOf records r.1 := List.mem_map.mpr ⟨r, List.mem_filter.mpr ⟨hr, by simp⟩, rfl⟩
        exact List.ne_nil_of_mem hm
      rw [hsame, if_pos ha] at hrow
      cases hold : index[makeAddressTxKey r.1 height]? with
      | none =>
        rw [hold] at hrow
        cases hrow
      | some old =>
        rw [hold, Option.getD_some, Option.some.injEq] at hrow
        exact hne (List.self_eq_append_right.mp hrow)
  · rintro ⟨hfresh, hall⟩
    refine Table.ext fun k => ?_
    rw [Table.get_eraseAll]
    split
    · rename_i hk
      obtain ⟨a, ha, rfl⟩ := List.mem_map.mp hk
      exact (hfresh a ha).symm
    · rename_i hk
      refine get_writeRecords_other h fun p hp hkey => hk (List.mem_map.mpr ⟨p.1, hall p.1 ?_, hkey⟩)
      have hrow := get_groupRecords records p.1
      rw [Table.mem_toList.mp hp] at hrow
      by_contra hno
      rw [if_neg hno] at hrow
      cases hrow

end

/-! ## Committing and unwinding -/

/-- The block's own transactions in the table do not matter: they are looked up in the block. -/
theorem previousOutput_stored {db db' : StorageEngine} {block : Block}
    (h : db'.transactions = Table.insertAll db.transactions (block.transactions.map fun t => (t.txid H, t))) (o : OutPoint) :
    previousOutput H db' block o = previousOutput H db block o := by
  unfold previousOutput
  split
  · rfl
  · rename_i hnone
    have hnot : o.txid ∉ (block.transactions.map fun t => (t.txid H, t)).map (·.1) := by
      intro hm
      obtain ⟨p, hp, hid⟩ := List.mem_map.mp hm
      obtain ⟨t, ht, rfl⟩ := List.mem_map.mp hp
      exact absurd hid (by simpa using List.find?_eq_none.mp hnone t (List.mem_reverse.mpr ht))
    rw [h, Table.get_insertAll_last, Table.lastOf_eq_none_iff.mpr hnot, Option.none_or]

/-- What the storage must be before a block is committed for an unwind to give it back. -/
structure Undoable (H : Hasher) (db : StorageEngine) (block : Block) (height : UInt64) : Prop where
  /-- The tip is the block's parent, one below. -/
  tip : db.tipHash = some block.header.previousBlockHash ∧ db.tipHeight = some (UInt64.ofNat (height.toNat - 1))
  heights : db.blockHeightIndex[height]? = none
  index : db.blockIndex[block.header.hash H]? = none
  undo : db.blockUndo[block.header.hash H]? = none
  transactions : ∀ t ∈ block.transactions, db.transactions[t.txid H]? = none
  confirmed : ∀ t ∈ block.transactions, db.txConfirmIndex[t.txid H]? = none
  /-- The block spends none of its own outputs. -/
  utxos : SpendsOld H height db.utxos block.transactions
  /-- The addresses that are found again have no row at the height. -/
  rows : ∀ a ∈ touchedAddresses H db block, db.addressTxIndex[makeAddressTxKey a height]? = none
  /-- The addresses of what the block spends are found again. -/
  found : ∀ t ∈ block.transactions, ∀ o ∈ t.spends, ∀ e, db.utxos[o]? = some e → ∀ a, e.output.Pays H a →
    a ∈ touchedAddresses H db block

theorem touchedAddresses_stored (db : StorageEngine) {db' : StorageEngine} {block : Block}
    (h : db'.transactions = Table.insertAll db.transactions (block.transactions.map fun t => (t.txid H, t))) :
    touchedAddresses H db' block = touchedAddresses H db block := by
  simp only [touchedAddresses, previousOutput_stored h]

/-- The tables after a commit and an unwind. -/
theorem unwindBlock_of_commit {db db₁ : StorageEngine} {block : Block} {height : UInt64} {work : CumulativeWork}
    (h : db.commitBlock H block height work = .ok db₁) : ∃ d index',
    storeTransactions H (block.header.hash H) height ⟨{ db with
        blocks := db.blocks.insert (block.header.hash H) block
        blockHeightIndex := db.blockHeightIndex.insert height (block.header.hash H) }, Undo.empty, []⟩
        block.transactions = .ok d ∧
      writeRecords height db.addressTxIndex (groupRecords d.records).toList = .ok index' ∧
      unwindBlock H db₁ block height = .ok ⟨
        (db.blocks.insert (block.header.hash H) block).erase (block.header.hash H),
        Table.eraseAll (Table.insertAll db.transactions (block.transactions.map fun t => (t.txid H, t)))
          (block.transactions.map fun t => t.txid H),
        (delta H height (db.utxos, Undo.empty) block.transactions).2.revert
          (delta H height (db.utxos, Undo.empty) block.transactions).1,
        (db.blockIndex.insert (block.header.hash H) ⟨height, work, block.header.timestamp⟩).erase (block.header.hash H),
        some block.header.previousBlockHash, some (UInt64.ofNat (height.toNat - 1)),
        Table.eraseAll index' ((touchedAddresses H db block).map fun a => makeAddressTxKey a height),
        (db.blockUndo.insert (block.header.hash H) (delta H height (db.utxos, Undo.empty) block.transactions).2).erase
          (block.header.hash H),
        (db.blockHeightIndex.insert height (block.header.hash H)).erase height,
        Table.eraseAll (Table.insertAll db.txConfirmIndex (block.transactions.map fun t => (t.txid H, (block.header.hash H, height))))
          (block.transactions.map fun t => t.txid H)⟩ := by
  simp only [commitBlock] at h
  split at h
  · cases h
  · rename_i db₀ hconnect
    cases h
    obtain ⟨d, index', hstore, hwrite, rfl⟩ := connectBlock_ok hconnect
    refine ⟨d, index', hstore, hwrite, ?_⟩
    simp only [unwindBlock, setTip, Table.get_insert_self, unwindTip, if_true, removeBlockAddressRecords]
    rw [touchedAddresses_stored db rfl]

/-- Where the transactions it spends from are stored, its addresses are found again. -/
theorem found_of_stored {db : StorageEngine} {block : Block} (h : ∀ t ∈ block.transactions, ∀ o ∈ t.spends,
    previousOutput H db block o = db.utxos[o]?.map UtxoEntry.output) :
    ∀ t ∈ block.transactions, ∀ o ∈ t.spends, ∀ e, db.utxos[o]? = some e → ∀ a, e.output.Pays H a →
      a ∈ touchedAddresses H db block := by
  intro t ht o ho e he a ha
  exact mem_touchedAddresses.mpr ⟨t, ht, .inr ⟨o, ho, e.output, by rw [h t ht o ho, he]; rfl, ha⟩⟩

/-- For every storage and every block that applies to its unspent outputs and is not stored: when
    the block is committed and unwound at one height, all tables and the tip are as they were
    exactly where the storage and the block are `Undoable`. -/
theorem unwind_undoes_commit_iff {db db₁ : StorageEngine} {block : Block} {height fees : UInt64} {work : CumulativeWork}
    {s' : UtxoSet} (hap : UtxoSet.applyBlock H ⟨db.utxos⟩ block.transactions height = .ok (s', fees))
    (hnew : db.blocks[block.header.hash H]? = none) (hcommit : db.commitBlock H block height work = .ok db₁) :
    unwindBlock H db₁ block height = .ok db ↔ Undoable H db block height := by
  have hproper : ProperBlock H height (db.utxos, Undo.empty) block.transactions := (applyBlock_proper hap Undo.empty).1
  obtain ⟨d, index', hstore, hwrite, hunwind⟩ := unwindBlock_of_commit hcommit
  have hrecorded := storeTransactions_recorded hproper hstore
  have hrows := eraseAll_writeRecords_iff hwrite (touchedAddresses H db block)
  have hutxos := revert_delta_iff hproper
  have hfound := recorded_touched_iff db hproper
  have htxs : Table.eraseAll (Table.insertAll db.transactions (block.transactions.map fun t => (t.txid H, t)))
      (block.transactions.map fun t => t.txid H) = db.transactions ↔ ∀ k ∈ block.transactions.map fun t => t.txid H,
        db.transactions[k]? = none := Table.eraseAll_insertAll_iff (by rw [List.map_map]; rfl)
  have hconfirmed : Table.eraseAll (Table.insertAll db.txConfirmIndex (block.transactions.map fun t =>
      (t.txid H, (block.header.hash H, height)))) (block.transactions.map fun t => t.txid H) = db.txConfirmIndex ↔
        ∀ k ∈ block.transactions.map fun t => t.txid H, db.txConfirmIndex[k]? = none :=
    Table.eraseAll_insertAll_iff (by rw [List.map_map]; rfl)
  rw [hunwind, Except.ok.injEq]
  constructor
  · intro heq
    obtain ⟨hfresh, hall⟩ := hrows.mp (congrArg StorageEngine.addressTxIndex heq)
    refine ⟨⟨(congrArg StorageEngine.tipHash heq).symm, (congrArg StorageEngine.tipHeight heq).symm⟩,
      Table.erase_insert_iff.mp (congrArg StorageEngine.blockHeightIndex heq),
      Table.erase_insert_iff.mp (congrArg StorageEngine.blockIndex heq),
      Table.erase_insert_iff.mp (congrArg StorageEngine.blockUndo heq),
      List.forall_mem_map.mp (htxs.mp (congrArg StorageEngine.transactions heq)),
      List.forall_mem_map.mp (hconfirmed.mp (congrArg StorageEngine.txConfirmIndex heq)),
      hutxos.mp (congrArg StorageEngine.utxos heq), hfresh, hfound.mp ?_⟩
    exact fun before t after hsplit a hrec => hall a ((hrecorded a).mpr (.inr ⟨before, t, after, hsplit, hrec⟩))
  · intro h
    have hall : ∀ a ∈ d.records.map (·.1), a ∈ touchedAddresses H db block := by
      intro a ha
      rcases (hrecorded a).mp ha with hnone | ⟨before, t, after, hsplit, hrec⟩
      · cases hnone
      · exact hfound.mpr h.found before t after hsplit a hrec
    rw [Table.erase_insert_iff.mpr hnew, htxs.mpr (List.forall_mem_map.mpr h.transactions), hutxos.mpr h.utxos,
      Table.erase_insert_iff.mpr h.index, ← h.tip.1, ← h.tip.2, hrows.mpr ⟨h.rows, hall⟩, Table.erase_insert_iff.mpr h.undo,
      Table.erase_insert_iff.mpr h.heights, hconfirmed.mpr (List.forall_mem_map.mpr h.confirmed)]

/-! ### A block on the genesis block, without and with a spend of its own output -/

def genesisStorage : StorageEngine :=
  match StorageEngine.empty.commitBlock Blake3.digest (buildGenesisBlock Blake3.digest 0x1d00ffff) 0 CumulativeWork.zero with
  | .ok db => db
  | .error _ => StorageEngine.empty

/-- It spends the first output of a transaction. -/
def passOn (t : Transaction) (value : UInt64) : Transaction :=
  ⟨transactionVersion1, [TxIn.new ⟨t.txid Blake3.digest, 0⟩ []], [⟨value, [0x51]⟩], 0⟩

def blockOnGenesis (txs : List Transaction) : Block where
  header := ⟨1, (buildGenesisBlock Blake3.digest 0x1d00ffff).header.hash Blake3.digest, Hash256.zero, Hash256.zero, 60,
    0x1d00ffff, 0⟩
  transactions := Transaction.newCoinbase 1 [⟨2500000000, [0x51]⟩] :: txs

def founderSpend : Transaction := passOn buildGenesisCoinbase 1000

def founderBlock : Block := blockOnGenesis [founderSpend]

def chainingBlock : Block := blockOnGenesis [founderSpend, passOn founderSpend 900]

set_option maxRecDepth 10000 in
theorem founderBlock_undoable : Undoable Blake3.digest genesisStorage founderBlock 1 where
  tip := by decide +kernel
  heights := by decide +kernel
  index := by decide +kernel
  undo := by decide +kernel
  transactions := by decide +kernel
  confirmed := by decide +kernel
  utxos := OwnFree.spendsOld (by decide +kernel)
  rows := by decide +kernel
  found := found_of_stored (by decide +kernel)

set_option maxRecDepth 10000 in
theorem unwind_undoes_commit_iff_founder : ∃ db₁,
    genesisStorage.commitBlock Blake3.digest founderBlock 1 CumulativeWork.zero = .ok db₁ ∧
      unwindBlock Blake3.digest db₁ founderBlock 1 = .ok genesisStorage := by
  have hrun : (UtxoSet.applyBlock Blake3.digest ⟨genesisStorage.utxos⟩ founderBlock.transactions 1).isOk = true ∧
      genesisStorage.blocks[founderBlock.header.hash Blake3.digest]? = none ∧
      (genesisStorage.commitBlock Blake3.digest founderBlock 1 CumulativeWork.zero).isOk = true := by decide +kernel
  obtain ⟨happly, hnew, hcommitted⟩ := hrun
  cases hap : UtxoSet.applyBlock Blake3.digest ⟨genesisStorage.utxos⟩ founderBlock.transactions 1 with
  | error e =>
    rw [hap] at happly
    cases happly
  | ok r =>
    cases hcommit : genesisStorage.commitBlock Blake3.digest founderBlock 1 CumulativeWork.zero with
    | error e =>
      rw [hcommit] at hcommitted
      cases hcommitted
    | ok db₁ => exact ⟨db₁, rfl, (unwind_undoes_commit_iff hap hnew hcommit).mpr founderBlock_undoable⟩

set_option maxRecDepth 10000 in
/-- The block applies, is new, is committed on the genesis block and unwound: the output it made
    and spent itself is unspent. -/
theorem unwind_revives_spent_output :
    (UtxoSet.applyBlock Blake3.digest ⟨genesisStorage.utxos⟩ chainingBlock.transactions 1).isOk = true ∧
      genesisStorage.blocks[chainingBlock.header.hash Blake3.digest]? = none ∧ ∃ db₁ db₂,
      genesisStorage.commitBlock Blake3.digest chainingBlock 1 CumulativeWork.zero = .ok db₁ ∧
        unwindBlock Blake3.digest db₁ chainingBlock 1 = .ok db₂ ∧
        genesisStorage.utxos[(⟨founderSpend.txid Blake3.digest, 0⟩ : OutPoint)]? = none ∧
        db₂.utxos[(⟨founderSpend.txid Blake3.digest, 0⟩ : OutPoint)]? = some ⟨⟨1000, [0x51]⟩, 1, false⟩ := by
  have hrun : (UtxoSet.applyBlock Blake3.digest ⟨genesisStorage.utxos⟩ chainingBlock.transactions 1).isOk = true ∧
      genesisStorage.blocks[chainingBlock.header.hash Blake3.digest]? = none ∧
      genesisStorage.utxos[(⟨founderSpend.txid Blake3.digest, 0⟩ : OutPoint)]? = none ∧
      ((genesisStorage.commitBlock Blake3.digest chainingBlock 1 CumulativeWork.zero).bind
        (fun db₁ => unwindBlock Blake3.digest db₁ chainingBlock 1)).map
          (fun db₂ => db₂.utxos[(⟨founderSpend.txid Blake3.digest, 0⟩ : OutPoint)]?) =
        .ok (some ⟨⟨1000, [0x51]⟩, 1, false⟩) := by decide +kernel
  obtain ⟨happly, hnew, hnone, hunwind⟩ := hrun
  refine ⟨happly, hnew, ?_⟩
  cases hcommit : genesisStorage.commitBlock Blake3.digest chainingBlock 1 CumulativeWork.zero with
  | error e =>
    rw [hcommit] at hunwind
    cases hunwind
  | ok db₁ =>
    rw [hcommit] at hunwind
    cases hun : unwindBlock Blake3.digest db₁ chainingBlock 1 with
    | error e =>
      simp only [Except.bind, hun] at hunwind
      cases hunwind
    | ok db₂ =>
      simp only [Except.bind, hun, Except.map, Except.ok.injEq] at hunwind
      exact ⟨db₁, db₂, rfl, hun, hnone, hunwind⟩

end Scytale
