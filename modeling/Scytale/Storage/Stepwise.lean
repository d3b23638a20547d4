/-
  Scytale.Storage.Stepwise — a reorganization in one write transaction against one block
  at a time (crates/scytale-storage/src/engine.rs).

  `apply_reorganization` repeats the bodies of `unwind_block` and `commit_block` inside one
  transaction, without the tip. The operations read no tip, so the tables are the same but
  for it (`Except.map` of `setTips`), and the last block connected sets it either way.
  - `unwindBlock_eq`: on a stored block, `unwind_block` is one round of the rollback loop
    and its own handling of the tip.
  - `reorganization_stepwise`: the batch succeeds exactly when the steps all succeed, and
    then leaves the same tables.
-/
import Scytale.Storage.Delta
import Scytale.Core.Genesis

namespace Scytale

open Lib

namespace StorageEngine

section
variable (H : Hasher)

/-- A tip that is the block moves to its parent. -/
def unwindTip (db : StorageEngine) (block : Block) (height : UInt64) : StorageEngine :=
  if db.tipHash = some (block.header.hash H) then
    -- `saturating_sub`
    db.setTip block.header.previousBlockHash (UInt64.ofNat (height.toNat - 1))
  else db

def unwindBlock (db : StorageEngine) (block : Block) (height : UInt64) : Except StorageError StorageEngine :=
  let hash := block.header.hash H
  match db.blockUndo[hash]? with
  | none => .error (.missingUndo hash)
  | some undo =>
    let txids := block.transactions.map fun t => t.txid H
    .ok (unwindTip H { db with
      addressTxIndex := removeBlockAddressRecords H db block height
      utxos := undo.revert db.utxos
      transactions := Table.eraseAll db.transactions txids
      txConfirmIndex := Table.eraseAll db.txConfirmIndex txids
      blocks := db.blocks.erase hash
      blockIndex := db.blockIndex.erase hash
      blockUndo := db.blockUndo.erase hash
      blockHeightIndex := db.blockHeightIndex.erase height } block height)

def unwindBlocks : StorageEngine → List (Block × UInt64) → Except StorageError StorageEngine
  | db, [] => .ok db
  | db, (block, height) :: rest =>
    match unwindBlock H db block height with
    | .error e => .error e
    | .ok db => unwindBlocks db rest

def commitBlocks : StorageEngine → List (Block × UInt64 × CumulativeWork) → Except StorageError StorageEngine
  | db, [] => .ok db
  | db, (block, height, work) :: rest =>
    match commitBlock H db block height work with
    | .error e => .error e
    | .ok db => commitBlocks db rest

/-- The block is stored, at this height. -/
def Stored (db : StorageEngine) (block : Block) (height : UInt64) : Prop :=
  db.blocks[block.header.hash H]? = some block ∧
    ∃ info, db.blockIndex[block.header.hash H]? = some info ∧ info.height = height

end

variable {H : Hasher}

/-! ## The operations do not read the tip -/

/-- The same tables with another tip, or none. -/
def setTips (tip : Option Hash256 × Option UInt64) (db : StorageEngine) : StorageEngine :=
  { db with tipHash := tip.1, tipHeight := tip.2 }

def Draft.setTips (tip : Option Hash256 × Option UInt64) (d : Draft) : Draft := { d with db := d.db.setTips tip }

theorem spendInputs_setTips (tip : Option Hash256 × Option UInt64) (txid : Hash256) (os : List OutPoint) :
    ∀ d : Draft, spendInputs H txid (d.setTips tip) os = (spendInputs H txid d os).map (Draft.setTips tip) := by
  induction os with
  | nil => intro d; rfl
  | cons o os ih =>
    intro d
    have hout : spentOutput (d.setTips tip).db o = spentOutput d.db o := rfl
    unfold spendInputs
    rw [hout]
    cases spentOutput d.db o with
    | error e => rfl
    | ok output =>
      exact ih ⟨{ d.db with utxos := (Undo.take (d.db.utxos, d.undo) o).1 }, (Undo.take (d.db.utxos, d.undo) o).2,
        d.records ++ inputRecords H txid output⟩

theorem storeTransactions_setTips (tip : Option Hash256 × Option UInt64) (hash : Hash256) (height : UInt64)
    (txs : List Transaction) : ∀ d : Draft,
    storeTransactions H hash height (d.setTips tip) txs = (storeTransactions H hash height d txs).map (Draft.setTips tip) := by
  have hone : ∀ (d : Draft) (tx : Transaction), storeTransaction H hash height (d.setTips tip) tx =
      (storeTransaction H hash height d tx).map (Draft.setTips tip) := by
    intro d tx
    simp only [storeTransaction]
    -- the tables the transaction is written to, with the tip replaced before or after
    generalize hd : (⟨{ d.db with
      transactions := d.db.transactions.insert (tx.txid H) tx
      txConfirmIndex := d.db.txConfirmIndex.insert (tx.txid H) (hash, height) }, d.undo, d.records⟩ : Draft) = d₁
    have hset : (⟨{ (d.setTips tip).db with
      transactions := (d.setTips tip).db.transactions.insert (tx.txid H) tx
      txConfirmIndex := (d.setTips tip).db.txConfirmIndex.insert (tx.txid H) (hash, height) },
        (d.setTips tip).undo, (d.setTips tip).records⟩ : Draft) = d₁.setTips tip := by
      rw [← hd]
      rfl
    rw [hset, spendInputs_setTips]
    cases spendInputs H (tx.txid H) d₁ (if tx.isCoinbase = true then [] else tx.inputs.map TxIn.previousOutput) with
    | error e => rfl
    | ok d₂ => rfl
  induction txs with
  | nil => intro d; rfl
  | cons tx txs ih =>
    intro d
    unfold storeTransactions
    rw [hone]
    cases storeTransaction H hash height d tx with
    | error e => rfl
    | ok d₁ => exact ih d₁

theorem connectBlock_setTips (tip : Option Hash256 × Option UInt64) (db : StorageEngine) (block : Block) (height : UInt64)
    (work : CumulativeWork) :
    connectBlock H (db.setTips tip) block height work = (connectBlock H db block height work).map (setTips tip) := by
  simp only [connectBlock]
  split
  · rfl
  · have h := storeTransactions_setTips (H := H) tip (block.header.hash H) height block.transactions
      ⟨{ db with
        blocks := db.blocks.insert (block.header.hash H) block
        blockHeightIndex := db.blockHeightIndex.insert height (block.header.hash H) }, Undo.empty, []⟩
    have hdraft : (⟨{ db.setTips tip with
        blocks := (db.setTips tip).blocks.insert (block.header.hash H) block
        blockHeightIndex := (db.setTips tip).blockHeightIndex.insert height (block.header.hash H) }, Undo.empty, []⟩ :
        Draft) = Draft.setTips tip ⟨{ db with
          blocks := db.blocks.insert (block.header.hash H) block
          blockHeightIndex := db.blockHeightIndex.insert height (block.header.hash H) }, Undo.empty, []⟩ := rfl
    rw [hdraft, h]
    cases hs : storeTransactions H (block.header.hash H) height ⟨{ db with
        blocks := db.blocks.insert (block.header.hash H) block
        blockHeightIndex := db.blockHeightIndex.insert height (block.header.hash H) }, Undo.empty, []⟩
        block.transactions with
    | error e => rfl
    | ok d =>
      have hindex : (d.setTips tip).db.addressTxIndex = d.db.addressTxIndex := rfl
      have hrecords : (d.setTips tip).records = d.records := rfl
      simp only [Except.map, hindex, hrecords]
      cases writeRecords height d.db.addressTxIndex (groupRecords d.records).toList with
      | error e => rfl
      | ok index => rfl

theorem disconnectBlock_setTips (tip : Option Hash256 × Option UInt64) (db : StorageEngine) (block : Block) :
    disconnectBlock H (db.setTips tip) block = (disconnectBlock H db block).map (setTips tip) := by
  have hindex : (db.setTips tip).blockIndex = db.blockIndex := rfl
  have hundo : (db.setTips tip).blockUndo = db.blockUndo := rfl
  cases hi : db.blockIndex[block.header.hash H]? with
  | none =>
    simp only [disconnectBlock, hindex, hundo, hi]
    cases db.blockUndo[block.header.hash H]? with
    | none => rfl
    | some undo => rfl
  | some info =>
    simp only [disconnectBlock, hindex, hundo, hi]
    cases db.blockUndo[block.header.hash H]? with
    | none => rfl
    | some undo => rfl

/-! ## One round -/

/-- Unwinding a stored block is one round of the rollback loop, but for the tip. -/
theorem unwindBlock_eq {db : StorageEngine} {block : Block} {height : UInt64} {info : BlockMeta}
    (hi : db.blockIndex[block.header.hash H]? = some info) (hh : info.height = height) :
    ∃ tip, unwindBlock H db block height = (disconnectBlock H db block).map (setTips tip) := by
  subst hh
  cases hu : db.blockUndo[block.header.hash H]? with
  | none =>
    refine ⟨(none, none), ?_⟩
    simp only [unwindBlock, disconnectBlock, hi, hu]
    rfl
  | some undo =>
    simp only [unwindBlock, disconnectBlock, hi, hu, unwindTip]
    split
    · exact ⟨(some block.header.previousBlockHash, some (UInt64.ofNat (info.height.toNat - 1))), rfl⟩
    · exact ⟨(db.tipHash, db.tipHeight), rfl⟩

/-- Still stored at this height, or gone with its undo record. -/
def Unwindable (H : Hasher) (db : StorageEngine) (p : Block × UInt64) : Prop :=
  (∃ info, db.blockIndex[p.1.header.hash H]? = some info ∧ info.height = p.2) ∨ db.blockUndo[p.1.header.hash H]? = none

theorem Unwindable.step {db db' : StorageEngine} {block : Block} {p : Block × UInt64} (hp : Unwindable H db p)
    (h : disconnectBlock H db block = .ok db') : Unwindable H db' p := by
  obtain ⟨-, -, -, -, hindex, hundo⟩ := disconnectBlock_ok h
  by_cases e : block.header.hash H = p.1.header.hash H
  · exact .inr (by rw [hundo, Table.get_erase, if_pos e])
  · rw [Unwindable, hindex, hundo, Table.get_erase, Table.get_erase, if_neg e, if_neg e]
    exact hp

theorem Unwindable.setTips {db : StorageEngine} {p : Block × UInt64} (hp : Unwindable H db p)
    (tip : Option Hash256 × Option UInt64) : Unwindable H (db.setTips tip) p := hp

theorem unwindBlock_of_unwindable {db : StorageEngine} {p : Block × UInt64} (hp : Unwindable H db p) :
    ∃ tip, unwindBlock H db p.1 p.2 = (disconnectBlock H db p.1).map (setTips tip) := by
  rcases hp with ⟨info, hi, hh⟩ | hu
  · exact unwindBlock_eq hi hh
  · refine ⟨(none, none), ?_⟩
    have hdisc : disconnectBlock H db p.1 = .error (.missingUndo (p.1.header.hash H)) := by
      cases hi : db.blockIndex[p.1.header.hash H]? with
      | none => simp only [disconnectBlock, hi, hu]
      | some info => simp only [disconnectBlock, hi, hu]
    rw [hdisc]
    simp only [unwindBlock, hu]
    rfl

/-! ## All rounds -/

/-- Unwinding block after block is the rollback loop, but for the tip. -/
theorem unwindBlocks_eq {disc : List (Block × UInt64)} : ∀ {db : StorageEngine}, (∀ p ∈ disc, Unwindable H db p) →
    ∀ tip₀, ∃ tip, unwindBlocks H (db.setTips tip₀) disc = (disconnectBlocks H db (disc.map (·.1))).map (setTips tip) := by
  induction disc with
  | nil => intro db _ tip₀; exact ⟨tip₀, rfl⟩
  | cons p disc ih =>
    intro db hp tip₀
    obtain ⟨tip₁, h₁⟩ := unwindBlock_of_unwindable ((hp p List.mem_cons_self).setTips tip₀)
    rw [disconnectBlock_setTips] at h₁
    simp only [unwindBlocks, List.map_cons, disconnectBlocks, h₁]
    cases hd : disconnectBlock H db p.1 with
    | error e => exact ⟨tip₀, rfl⟩
    | ok db₁ =>
      obtain ⟨tip, h⟩ := ih (fun q hq => (hp q (List.mem_cons_of_mem _ hq)).step hd) tip₁
      exact ⟨tip, h⟩

/-- Committing block after block is the connecting loop and the last block's tip. -/
theorem commitBlocks_eq {conn : List (Block × UInt64 × CumulativeWork)} : ∀ (db : StorageEngine) (tip₀), conn ≠ [] →
    commitBlocks H (db.setTips tip₀) conn = (connectBlocks H db conn).map fun db =>
      match conn.getLast? with
      | none => db
      | some (block, height, _) => db.setTip (block.header.hash H) height := by
  induction conn with
  | nil => intro db tip₀ h; exact absurd rfl h
  | cons c conn ih =>
    obtain ⟨block, height, work⟩ := c
    intro db tip₀ _
    simp only [commitBlocks, connectBlocks, commitBlock, connectBlock_setTips]
    cases hc : connectBlock H db block height work with
    | error e => rfl
    | ok db₁ =>
      cases conn with
      | nil => rfl
      | cons c' conn =>
        have hlast : ((block, height, work) :: c' :: conn).getLast? = (c' :: conn).getLast? := rfl
        rw [hlast]
        exact ih db₁ (some (block.header.hash H), some height) (by simp)

/-- For every list of stored blocks to disconnect and every list of blocks to connect, at
    least one: the reorganization in one transaction leaves what unwinding and then
    committing one by one leave, and succeeds exactly when all of these do. -/
theorem reorganization_stepwise (db : StorageEngine) (disc : List (Block × UInt64))
    (conn : List (Block × UInt64 × CumulativeWork)) (hstored : ∀ p ∈ disc, Stored H db p.1 p.2) (hne : conn ≠ [])
    (db' : StorageEngine) : applyReorganization H db (disc.map (·.1)) conn = .ok db' ↔
      ∃ db₁, unwindBlocks H db disc = .ok db₁ ∧ commitBlocks H db₁ conn = .ok db' := by
  have hun : ∀ p ∈ disc, Unwindable H db p := fun p hp => .inl (hstored p hp).2
  obtain ⟨tip, hunwind⟩ := unwindBlocks_eq hun (db.tipHash, db.tipHeight)
  have hself : db.setTips (db.tipHash, db.tipHeight) = db := rfl
  rw [hself] at hunwind
  rw [hunwind, applyReorganization]
  cases hd : disconnectBlocks H db (disc.map (·.1)) with
  | error e =>
    constructor
    · intro h
      cases h
    · rintro ⟨db₁, h, -⟩
      cases h
  | ok db₁ =>
    have hcommit := commitBlocks_eq (H := H) db₁ tip hne
    have hlast : ∃ c, conn.getLast? = some c := by
      cases hc : conn.getLast? with
      | none => exact absurd (List.getLast?_eq_none_iff.mp hc) hne
      | some c => exact ⟨c, rfl⟩
    obtain ⟨⟨block, height, work⟩, hlast⟩ := hlast
    rw [hlast] at hcommit
    simp only [hlast]
    cases hc : connectBlocks H db₁ conn with
    | error e =>
      rw [hc] at hcommit
      constructor
      · intro h
        cases h
      · rintro ⟨db₂, h, h'⟩
        cases h
        rw [hcommit] at h'
        cases h'
    | ok db₂ =>
      rw [hc] at hcommit
      constructor
      · intro h
        exact ⟨_, rfl, hcommit.trans h⟩
      · rintro ⟨db₃, h, h'⟩
        cases h
        exact hcommit.symm.trans h'

/-- A genesis block goes for one of another difficulty. -/
theorem reorganization_stepwise_genesis :
    let g := buildGenesisBlock Blake3.digest 0x1d00ffff
    let g' := buildGenesisBlock Blake3.digest 0x1d00fffe
    let w := CumulativeWork.zero
    ∃ db db₁ db', empty.commitBlock Blake3.digest g 0 w = .ok db ∧
      applyReorganization Blake3.digest db [g] [(g', 0, w)] = .ok db' ∧
      unwindBlocks Blake3.digest db [(g, 0)] = .ok db₁ ∧ commitBlocks Blake3.digest db₁ [(g', 0, w)] = .ok db' := by
  intro g g' w
  have hrun : ((empty.commitBlock Blake3.digest g 0 w).bind fun db =>
      applyReorganization Blake3.digest db [g] [(g', 0, w)]).isOk = true := by decide +kernel
  cases hcommit : empty.commitBlock Blake3.digest g 0 w with
  | error e =>
    rw [hcommit] at hrun
    cases hrun
  | ok db =>
    rw [hcommit] at hrun
    cases hreorg : applyReorganization Blake3.digest db [g] [(g', 0, w)] with
    | error e =>
      simp only [Except.bind, hreorg] at hrun
      cases hrun
    | ok db' =>
      have hstored : ∀ p ∈ [(g, (0 : UInt64))], Stored Blake3.digest db p.1 p.2 := by
        intro p hp
        rw [List.mem_singleton.mp hp]
        simp only [commitBlock] at hcommit
        split at hcommit
        · cases hcommit
        · rename_i db₀ hconnect
          cases hcommit
          obtain ⟨-, -, -, -, rfl⟩ := connectBlock_ok hconnect
          exact ⟨Table.get_insert_self _ _ _, _, Table.get_insert_self _ _ _, rfl⟩
      obtain ⟨db₁, h₁, h₂⟩ := (reorganization_stepwise db [(g, 0)] [(g', 0, w)] hstored (by simp) db').mp hreorg
      exact ⟨db, db₁, db', rfl, hreorg, h₁, h₂⟩

end StorageEngine

end Scytale
