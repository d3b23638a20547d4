/-
  Scytale.Storage.Records — the address records of a block, from the chain and from the
  tables (crates/scytale-storage/src/engine.rs).

  What a block's records are is said from the transactions of its chain (`blockRecords`). The
  storage reads the outputs it records as spent from its table of unspent outputs, and when it
  takes a block back from its table of transactions.
  - `storeTransactions_covers`: a block that applies has exactly its records written, also on
    tables that hold more unspent outputs than the set it applies to.
  - `mem_touchedAddresses`: the addresses an unwind finds.
  - `touchedAddresses_complete`: and none of its addresses is missed when it is taken back.
-/
import Scytale.Lib.Contents
import Scytale.Storage.Commit
import Scytale.Consensus.Naming

namespace Scytale

open Lib StorageEngine

/-! ## The records -/

section
variable (H : Hasher)

/-- The output an outpoint names among these transactions. -/
def outputAmong (txs : List Transaction) (o : OutPoint) : Option TxOut :=
  (txs.find? fun t => t.txid H = o.txid).bind fun t => t.outputs[o.index.toNat]?

/-- A record for each output a transaction spends, then one for each it makes. -/
def transactionRecords (source : OutPoint → Option TxOut) (tx : Transaction) : List (Bytes × AddressTxRecord) :=
  (if tx.isCoinbase then [] else tx.inputs.map TxIn.previousOutput).flatMap (fun o => inputRecords H (tx.txid H) (source o)) ++
    outputRecords H (tx.txid H) tx.outputs

def blockRecords (source : OutPoint → Option TxOut) (block : Block) : List (Bytes × AddressTxRecord) :=
  block.transactions.flatMap (transactionRecords H source)

/-- The rows of a block in the address index: for each address its records, in their order. -/
def blockRows (source : OutPoint → Option TxOut) (block : Block) (height : UInt64) : List (Bytes × List AddressTxRecord) :=
  (groupRecords (blockRecords H source block)).toList.map fun p => (makeAddressTxKey p.1 height, p.2)

/-- Transactions with distinct identifiers that can be read back. -/
structure Identified (txs : List Transaction) : Prop where
  ids : (txs.map fun t => t.txid H).Nodup
  readable : ∀ t ∈ txs, t.decodable = true

end

variable {H : Hasher}

theorem Identified.outputAmong_mem {txs : List Transaction} (h : Identified H txs) {t : Transaction} (ht : t ∈ txs)
    {o : OutPoint} (ho : t.txid H = o.txid) : outputAmong H txs o = t.outputs[o.index.toNat]? := by
  rw [outputAmong]
  cases hf : txs.find? fun t => t.txid H = o.txid with
  | none => exact absurd ho (by simpa using List.find?_eq_none.mp hf t ht)
  | some t' =>
    have hid : t'.txid H = o.txid := by simpa using List.find?_some hf
    have : t' = t := List.inj_on_of_nodup_map h.ids (List.mem_of_find?_eq_some hf) ht (hid.trans ho.symm)
    rw [this]
    rfl

theorem txid_mem_of_outputAmong {txs : List Transaction} {o : OutPoint} {out : TxOut}
    (h : outputAmong H txs o = some out) : o.txid ∈ txs.map fun t => t.txid H := by
  obtain ⟨t, ht, -⟩ := Option.bind_eq_some_iff.mp h
  exact List.mem_map.mpr ⟨t, List.mem_of_find?_eq_some ht, by simpa using List.find?_some ht⟩

/-- The transactions name their own outputs. -/
theorem Identified.named {txs : List Transaction} (h : Identified H txs) {t : Transaction} (ht : t ∈ txs) :
    Named H (outputAmong H txs) t := by
  refine ⟨fun o out ho hout => ?_, ?_⟩
  · rw [h.outputAmong_mem ht ho.symm]
    exact hout
  · have := h.readable t ht
    have hmax := maxVectorLength_lt
    simp only [Transaction.decodable, Bool.and_eq_true, decide_eq_true_eq] at this
    omega

/-! ## The addresses of the records -/

/-- The address an output is indexed under. -/
def TxOut.Pays (H : Hasher) (out : TxOut) (address : Bytes) : Prop :=
  extractAddressFromLockingCondition H out.lockingCondition = some address

theorem mem_outputRecords {txid : Hash256} {outputs : List TxOut} {address : Bytes} :
    address ∈ (outputRecords H txid outputs).map (·.1) ↔ ∃ out ∈ outputs, out.Pays H address := by
  simp only [outputRecords, List.mem_map, List.mem_filterMap, Option.map_eq_some_iff, TxOut.Pays]
  constructor
  · rintro ⟨r, ⟨out, hout, a, ha, rfl⟩, rfl⟩
    exact ⟨out, hout, ha⟩
  · rintro ⟨out, hout, ha⟩
    exact ⟨_, ⟨out, hout, address, ha, rfl⟩, rfl⟩

theorem mem_inputRecords {txid : Hash256} {output : Option TxOut} {address : Bytes} :
    address ∈ (inputRecords H txid output).map (·.1) ↔ ∃ out, output = some out ∧ out.Pays H address := by
  cases output with
  | none => simp [inputRecords]
  | some out =>
    simp only [inputRecords, TxOut.Pays, Option.some.injEq, exists_eq_left']
    cases extractAddressFromLockingCondition H out.lockingCondition with
    | none => simp
    | some a => simp [eq_comm]

/-! ## Writing a block -/

/-- Inserting what a transaction creates, followed by a table that holds more. -/
theorem insertAll_covers {m₀ : Table OutPoint UtxoEntry} {l : List (OutPoint × UtxoEntry)} : ∀ {s s' : UtxoSet}
    {d : Table OutPoint UtxoEntry × BlockUndo}, UtxoSet.insertAll s l = (s', .ok ()) → (∀ p ∈ l, m₀[p.1]? = none) →
    Undo.Covers m₀ s.entries d → Undo.Covers m₀ s'.entries (Undo.putAll d l) := by
  induction l with
  | nil => intro s s' d h _ hc; cases h; exact hc
  | cons p l ih =>
    obtain ⟨o, e⟩ := p
    intro s s' d h hfresh hc
    unfold UtxoSet.insertAll at h
    split at h
    · cases h
    · rename_i s₁ h₁
      obtain ⟨-, hent⟩ := UtxoSet.insert_ok h₁
      refine ih h (fun q hq => hfresh q (List.mem_cons_of_mem _ hq)) ?_
      rw [hent]
      exact hc.put e (hfresh _ List.mem_cons_self)

theorem spendInputs_records (source : OutPoint → Option TxOut) {txid : Hash256} {os : List OutPoint} :
    ∀ {d d' : Draft}, os.Nodup → (∀ o ∈ os, ∃ e, d.db.utxos[o]? = some e ∧ source o = some e.output) →
      spendInputs H txid d os = .ok d' →
      d'.records = d.records ++ os.flatMap fun o => inputRecords H txid (source o) := by
  induction os with
  | nil => intro d d' _ _ h; cases h; simp
  | cons o os ih =>
    intro d d' hnd hall h
    obtain ⟨ho, hnd⟩ := List.nodup_cons.mp hnd
    obtain ⟨e, he, hsource⟩ := hall o List.mem_cons_self
    have hspent : spentOutput d.db o = .ok (some e.output) := by
      simp only [spentOutput, he]
    unfold spendInputs at h
    rw [hspent] at h
    have hrest := ih hnd (fun a ha => by
      obtain ⟨w, hw, hs⟩ := hall a (List.mem_cons_of_mem _ ha)
      have hne : o ≠ a := fun e => ho (e ▸ ha)
      refine ⟨w, ?_, hs⟩
      show (Undo.take (d.db.utxos, d.undo) o).1[a]? = some w
      rw [Undo.take_fst, Table.get_erase, if_neg hne]
      exact hw) h
    rw [hrest, List.flatMap_cons, hsource, List.append_assoc]

section
variable {txs : List Transaction} {m₀ : Table OutPoint UtxoEntry} {hash : Hash256} {height : UInt64}

/-- One transaction after the coinbase. -/
theorem storeTransaction_covers {d d' : Draft} {s s' : UtxoSet} {tx : Transaction} {fee : UInt64}
    (hc : Undo.Covers m₀ s.entries (d.db.utxos, d.undo)) (hs : Sourced (outputAmong H txs) s) (hcb : tx.isCoinbase = false)
    (hap : UtxoSet.applyTransaction H s tx height = (s', .ok fee)) (hfresh : ∀ o ∈ tx.outpoints H, m₀[o]? = none)
    (h : storeTransaction H hash height d tx = .ok d') :
    Undo.Covers m₀ s'.entries (d'.db.utxos, d'.undo) ∧
      d'.records = d.records ++ transactionRecords H (outputAmong H txs) tx := by
  obtain ⟨hv, hins, -⟩ := UtxoSet.applyTransaction_ok hap
  obtain ⟨-, hnd⟩ := Transaction.validateStateless_ok hv
  have hall := UtxoSet.applyTransaction_unspent hap
  constructor
  · rw [(storeTransaction_ok h).1, deltaTransaction, hcb]
    refine insertAll_covers hins (fun p hp => hfresh p.1 ?_) (hc.takeAll hnd hall)
    rw [← UtxoSet.created_keys height false tx]
    exact List.mem_map.mpr ⟨p, hp, rfl⟩
  · simp only [storeTransaction, hcb, Bool.false_eq_true, if_false] at h
    split at h
    · cases h
    · rename_i d₁ h₁
      cases h
      have hrec := spendInputs_records (outputAmong H txs) hnd (fun o ho => by
        obtain ⟨e, he⟩ := hall o ho
        exact ⟨e, hc.within o e he, hs o e he⟩) h₁
      show d₁.records ++ outputRecords H (tx.txid H) tx.outputs = _
      rw [hrec, transactionRecords, hcb]
      simp

theorem storeRest_covers (hl : Identified H txs) {rest : List Transaction} : ∀ {d d' : Draft} {s s' : UtxoSet}
    {fees fees' : UInt64}, Undo.Covers m₀ s.entries (d.db.utxos, d.undo) → Sourced (outputAmong H txs) s → (∀ t ∈ rest, t ∈ txs) →
    (∀ t ∈ rest, ∀ o ∈ t.outpoints H, m₀[o]? = none) → UtxoSet.applyRest H height s fees rest = .ok (s', fees') →
    storeTransactions H hash height d rest = .ok d' → Undo.Covers m₀ s'.entries (d'.db.utxos, d'.undo) ∧
      d'.records = d.records ++ rest.flatMap (transactionRecords H (outputAmong H txs)) := by
  induction rest with
  | nil =>
    intro d d' s s' fees fees' hc _ _ _ hap h
    cases hap
    cases h
    exact ⟨hc, by simp⟩
  | cons t rest ih =>
    intro d d' s s' fees fees' hc hs hmem hfresh hap h
    obtain ⟨hcb, s₁, fee, fees₁, hap₁, -, hrest⟩ := UtxoSet.applyRest_cons hap
    unfold storeTransactions at h
    split at h
    · cases h
    · rename_i d₁ h₁
      obtain ⟨hc₁, hrec₁⟩ := storeTransaction_covers hc hs hcb hap₁ (hfresh t List.mem_cons_self) h₁
      obtain ⟨hc₂, hrec₂⟩ := ih hc₁ (hs.transaction (hl.named (hmem t List.mem_cons_self)) hap₁)
        (fun a ha => hmem a (List.mem_cons_of_mem _ ha)) (fun a ha => hfresh a (List.mem_cons_of_mem _ ha)) hrest h
      exact ⟨hc₂, by rw [hrec₂, hrec₁, List.flatMap_cons, List.append_assoc]⟩

/-- A block that applies to a set the tables hold: the tables hold the set it leaves, its
    record knows the way back, and its address records are those of its chain. -/
theorem storeTransactions_covers (db : StorageEngine) (hl : Identified H txs) {d' : Draft} {s s' : UtxoSet} {block : Block}
    {fees : UInt64} (hw : Table.Within s.entries db.utxos) (hs : Sourced (outputAmong H txs) s) (hmem : ∀ t ∈ block.transactions, t ∈ txs)
    (hfresh : ∀ t ∈ block.transactions, ∀ o ∈ t.outpoints H, s.entries[o]? = none)
    (hap : UtxoSet.applyBlock H s block.transactions height = .ok (s', fees))
    (h : storeTransactions H hash height ⟨db, Undo.empty, []⟩ block.transactions = .ok d') :
    Undo.Covers s.entries s'.entries (d'.db.utxos, d'.undo) ∧
      d'.records = blockRecords H (outputAmong H txs) block := by
  obtain ⟨cb, rest, s₁, htxs, hcb, hapcb, hrest⟩ := UtxoSet.applyBlock_ok hap
  obtain ⟨-, hins⟩ := UtxoSet.applyCoinbase_ok hapcb
  rw [htxs] at hmem hfresh h
  simp only [storeTransactions, storeTransaction_coinbase hcb] at h
  have hc₁ := insertAll_covers hins (fun p hp => hfresh cb List.mem_cons_self p.1 (by
    rw [← UtxoSet.created_keys height true cb]
    exact List.mem_map.mpr ⟨p, hp, rfl⟩)) (Undo.covers_start hw)
  have hs₁ := hs.insertAll (hl.named (hmem cb List.mem_cons_self)) hins
  rw [← hcb] at hc₁
  obtain ⟨hc, hrec⟩ := storeRest_covers hl (d := createOutputs H height cb ⟨{ db with
    transactions := db.transactions.insert (cb.txid H) cb
    txConfirmIndex := db.txConfirmIndex.insert (cb.txid H) (hash, height) }, Undo.empty, []⟩) hc₁ hs₁
    (fun t ht => hmem t (List.mem_cons_of_mem _ ht)) (fun t ht => hfresh t (List.mem_cons_of_mem _ ht)) hrest h
  refine ⟨hc, ?_⟩
  rw [hrec, blockRecords, htxs, List.flatMap_cons, transactionRecords, hcb]
  simp [createOutputs]

end

/-- On rows that are not there yet the records of a block go in as they are. -/
theorem writeRecords_fresh {height : UInt64} {l : List (Bytes × List AddressTxRecord)} :
    ∀ {index index' : Table Bytes (List AddressTxRecord)}, (l.map (·.1)).Nodup →
      (∀ p ∈ l, index[makeAddressTxKey p.1 height]? = none) → writeRecords height index l = .ok index' →
      index' = Table.insertAll index (l.map fun p => (makeAddressTxKey p.1 height, p.2)) := by
  induction l with
  | nil => intro index index' _ _ h; cases h; rfl
  | cons p l ih =>
    intro index index' hnd hfresh h
    obtain ⟨hp, hnd⟩ := List.nodup_cons.mp hnd
    have h' := writeRecords_cons h
    rw [hfresh p List.mem_cons_self, Option.getD_none, List.nil_append] at h'
    refine ih hnd (fun q hq => ?_) h'
    have hne : makeAddressTxKey p.1 height ≠ makeAddressTxKey q.1 height := fun e =>
      hp (List.mem_map.mpr ⟨q, hq, (makeAddressTxKey_inj e).symm⟩)
    rw [Table.get_insert_ne _ _ hne]
    exact hfresh q (List.mem_cons_of_mem _ hq)

/-! ## Taking a block back -/

/-- The output an input spent, as it is looked up when the block is taken back. -/
theorem previousOutput_eq {txs : List Transaction} (hl : Identified H txs) {db : StorageEngine}
    (hdb : Table.Exactly db.transactions (txs.map fun t => (t.txid H, t))) {block : Block}
    (hmem : ∀ t ∈ block.transactions, t ∈ txs) (o : OutPoint) : previousOutput H db block o = outputAmong H txs o := by
  have hstored : ∀ id prev, db.transactions[id]? = some prev → prev ∈ txs ∧ prev.txid H = id := by
    intro id prev h
    obtain ⟨t, ht, he⟩ := List.mem_map.mp ((hdb id prev).mp h)
    cases he
    exact ⟨ht, rfl⟩
  unfold previousOutput
  split
  · rename_i t ht
    have hid : t.txid H = o.txid := by simpa using List.find?_some ht
    have htm : t ∈ block.transactions := List.mem_reverse.mp (List.mem_of_find?_eq_some ht)
    exact (hl.outputAmong_mem (hmem t htm) hid).symm
  · cases hg : db.transactions[o.txid]? with
    | none =>
      simp only
      cases ho : outputAmong H txs o with
      | none => rfl
      | some out =>
        obtain ⟨t, ht, hid⟩ := List.mem_map.mp (txid_mem_of_outputAmong ho)
        have := (hdb o.txid t).mpr (List.mem_map.mpr ⟨t, ht, by rw [hid]⟩)
        rw [hg] at this
        cases this
    | some prev =>
      obtain ⟨hprev, hid⟩ := hstored _ _ hg
      simp only [hl.readable prev hprev, if_true]
      exact (hl.outputAmong_mem hprev hid).symm

theorem mem_touchedAddresses {db : StorageEngine} {block : Block} {address : Bytes} :
    address ∈ touchedAddresses H db block ↔ ∃ t ∈ block.transactions,
      (∃ out ∈ t.outputs, out.Pays H address) ∨
        ∃ o ∈ t.spends, ∃ out, previousOutput H db block o = some out ∧ out.Pays H address := by
  simp only [touchedAddresses, List.mem_flatMap, List.mem_filterMap, List.mem_append, TxOut.Pays, Transaction.spends]
  refine exists_congr fun t => and_congr_right fun _ => ?_
  constructor
  · rintro ⟨script, hscript | hscript, ha⟩
    · obtain ⟨out, hout, rfl⟩ := List.mem_map.mp hscript
      exact .inl ⟨out, hout, ha⟩
    · split at hscript
      · cases hscript
      · rename_i hcb
        obtain ⟨i, hi, hprev⟩ := List.mem_filterMap.mp hscript
        obtain ⟨out, hout, rfl⟩ := Option.map_eq_some_iff.mp hprev
        exact .inr ⟨i.previousOutput, by rw [if_neg hcb]; exact List.mem_map.mpr ⟨i, hi, rfl⟩, out, hout, ha⟩
  · rintro (⟨out, hout, ha⟩ | ⟨o, ho, out, hout, ha⟩)
    · exact ⟨_, .inl (List.mem_map.mpr ⟨out, hout, rfl⟩), ha⟩
    · split at ho
      · cases ho
      · rename_i hcb
        obtain ⟨i, hi, rfl⟩ := List.mem_map.mp ho
        refine ⟨_, .inr ?_, ha⟩
        rw [if_neg hcb]
        exact List.mem_filterMap.mpr ⟨i, hi, by rw [hout]; rfl⟩

/-- Every address with a record of the block is touched. -/
theorem touchedAddresses_complete {db : StorageEngine} {block : Block} {source : OutPoint → Option TxOut}
    (hsource : ∀ o, previousOutput H db block o = source o) {address : Bytes}
    (h : address ∈ (blockRecords H source block).map (·.1)) : address ∈ touchedAddresses H db block := by
  rw [blockRecords, List.map_flatMap] at h
  obtain ⟨tx, htx, h⟩ := List.mem_flatMap.mp h
  rw [transactionRecords, List.map_append, List.mem_append, mem_outputRecords, List.map_flatMap] at h
  refine mem_touchedAddresses.mpr ⟨tx, htx, ?_⟩
  rcases h with h | h
  · obtain ⟨o, ho, h⟩ := List.mem_flatMap.mp h
    obtain ⟨out, hout, ha⟩ := mem_inputRecords.mp h
    exact .inr ⟨o, ho, out, by rw [hsource, hout], ha⟩
  · exact .inl h

end Scytale
