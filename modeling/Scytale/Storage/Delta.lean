/-
  Scytale.Storage.Delta — what the storage operations do to the unspent outputs and to the
  undo records.

  - `delta`: a block's changes to the unspent outputs, and the record of them.
  - `connectBlock_ok` / `disconnectBlock_ok`: the operations write exactly that, and take
    it back.
  - `ProperBlock`: each transaction spends what is there and creates what is not, as in every
    block that applies (`applyBlock_proper`).
  - `revert_delta_iff`: the record takes the changes back exactly when what the block spends
    last at each outpoint was there before it (`SpendsOld`).
  - `applyBlock_delta`: on the entries of a set that takes the block, the changes lead to
    the entries of the set the block leaves; and if no transaction of the block spends an
    output of an earlier one (`OwnFree`), the record takes them back.
-/
import Scytale.Storage.Engine

namespace Scytale

open Lib

variable {H : Hasher}

/-! ## A block's changes -/

section
variable (H)

def deltaTransaction (height : UInt64) (s : Table OutPoint UtxoEntry × BlockUndo) (tx : Transaction) :
    Table OutPoint UtxoEntry × BlockUndo :=
  Undo.putAll (Undo.takeAll s (if tx.isCoinbase then [] else tx.inputs.map TxIn.previousOutput))
    (UtxoSet.created H height tx.isCoinbase tx)

def delta (height : UInt64) (s : Table OutPoint UtxoEntry × BlockUndo) (txs : List Transaction) :
    Table OutPoint UtxoEntry × BlockUndo := txs.foldl (deltaTransaction H height) s

/-- No transaction spends an output that one before it created. -/
def OwnFree (txs : List Transaction) : Prop :=
  txs.Pairwise fun earlier t => ∀ i ∈ t.inputs, i.previousOutput ∉ earlier.outpoints H

instance (txs : List Transaction) : Decidable (OwnFree H txs) :=
  inferInstanceAs (Decidable (txs.Pairwise fun earlier t => ∀ i ∈ t.inputs, i.previousOutput ∉ earlier.outpoints H))

end

/-! ## The operations write it -/

namespace StorageEngine

theorem spendInputs_ok {txid : Hash256} {os : List OutPoint} : ∀ {d d' : Draft}, spendInputs H txid d os = .ok d' →
    (d'.db.utxos, d'.undo) = Undo.takeAll (d.db.utxos, d.undo) os ∧ d'.db = { d.db with utxos := d'.db.utxos } := by
  induction os with
  | nil => intro d d' h; cases h; exact ⟨rfl, rfl⟩
  | cons o os ih =>
    intro d d' h
    unfold spendInputs at h
    split at h
    · cases h
    · exact ih h

theorem storeTransaction_ok {hash : Hash256} {height : UInt64} {d d' : Draft} {tx : Transaction}
    (h : storeTransaction H hash height d tx = .ok d') :
    (d'.db.utxos, d'.undo) = deltaTransaction H height (d.db.utxos, d.undo) tx ∧
      d'.db = { d.db with
        utxos := d'.db.utxos
        transactions := d.db.transactions.insert (tx.txid H) tx
        txConfirmIndex := d.db.txConfirmIndex.insert (tx.txid H) (hash, height) } := by
  simp only [storeTransaction] at h
  split at h
  · cases h
  · rename_i d₁ h₁
    cases h
    obtain ⟨h2, h3⟩ := spendInputs_ok h₁
    constructor
    · rw [deltaTransaction, ← h2]
      rfl
    · simp only [createOutputs]
      rw [h3]

/-- The transactions change the unspent outputs by their delta, are entered by their
    identifiers, and touch no other table. -/
theorem storeTransactions_ok {hash : Hash256} {height : UInt64} {txs : List Transaction} : ∀ {d d' : Draft},
    storeTransactions H hash height d txs = .ok d' →
    (d'.db.utxos, d'.undo) = delta H height (d.db.utxos, d.undo) txs ∧
      d'.db = { d.db with
        utxos := d'.db.utxos
        transactions := Table.insertAll d.db.transactions (txs.map fun t => (t.txid H, t))
        txConfirmIndex := Table.insertAll d.db.txConfirmIndex (txs.map fun t => (t.txid H, (hash, height))) } := by
  induction txs with
  | nil => intro d d' h; cases h; exact ⟨rfl, rfl⟩
  | cons tx txs ih =>
    intro d d' h
    unfold storeTransactions at h
    split at h
    · cases h
    · rename_i d₁ h₁
      obtain ⟨h2, h3⟩ := storeTransaction_ok h₁
      obtain ⟨h4, h5⟩ := ih h
      constructor
      · rw [h4, h2]
        rfl
      · rw [h5, h3]
        rfl

/-- The tables a connected block leaves, with the address records it has. -/
theorem connectBlock_ok {db db' : StorageEngine} {block : Block} {height : UInt64} {work : CumulativeWork}
    (h : connectBlock H db block height work = .ok db') :
    ∃ d index, storeTransactions H (block.header.hash H) height ⟨{ db with
        blocks := db.blocks.insert (block.header.hash H) block
        blockHeightIndex := db.blockHeightIndex.insert height (block.header.hash H) }, Undo.empty, []⟩
        block.transactions = .ok d ∧
      writeRecords height db.addressTxIndex (groupRecords d.records).toList = .ok index ∧
      db' = { db with
        blocks := db.blocks.insert (block.header.hash H) block
        blockHeightIndex := db.blockHeightIndex.insert height (block.header.hash H)
        utxos := (delta H height (db.utxos, Undo.empty) block.transactions).1
        transactions := Table.insertAll db.transactions (block.transactions.map fun t => (t.txid H, t))
        txConfirmIndex := Table.insertAll db.txConfirmIndex
          (block.transactions.map fun t => (t.txid H, (block.header.hash H, height)))
        addressTxIndex := index
        blockUndo := db.blockUndo.insert (block.header.hash H)
          (delta H height (db.utxos, Undo.empty) block.transactions).2
        blockIndex := db.blockIndex.insert (block.header.hash H) ⟨height, work, block.header.timestamp⟩ } := by
  simp only [connectBlock] at h
  split at h
  · cases h
  · split at h
    · cases h
    · rename_i d hd
      obtain ⟨h1, h2⟩ := storeTransactions_ok hd
      split at h
      · cases h
      · rename_i index hindex
        cases h
        refine ⟨d, index, hd, ?_, ?_⟩
        · rw [h2] at hindex
          exact hindex
        · have hutxos : d.db.utxos = (delta H height (db.utxos, Undo.empty) block.transactions).1 := congrArg Prod.fst h1
          have hundo : d.undo = (delta H height (db.utxos, Undo.empty) block.transactions).2 := congrArg Prod.snd h1
          rw [h2, hutxos, hundo]

/-- The tables a disconnected block leaves, under the undo record it has. -/
theorem disconnectBlock_ok {db db' : StorageEngine} {block : Block} (h : disconnectBlock H db block = .ok db') :
    ∃ undo, db.blockUndo[block.header.hash H]? = some undo ∧ db'.utxos = undo.revert db.utxos ∧
      db'.blocks = db.blocks.erase (block.header.hash H) ∧ db'.blockIndex = db.blockIndex.erase (block.header.hash H) ∧
      db'.blockUndo = db.blockUndo.erase (block.header.hash H) := by
  simp only [disconnectBlock] at h
  cases hi : db.blockIndex[block.header.hash H]? with
  | none =>
    rw [hi] at h
    simp only at h
    split at h
    · cases h
    · rename_i undo hu
      cases h
      exact ⟨undo, hu, rfl, rfl, rfl, rfl⟩
  | some info =>
    rw [hi] at h
    simp only at h
    split at h
    · cases h
    · rename_i undo hu
      cases h
      exact ⟨undo, hu, rfl, rfl, rfl, rfl⟩

end StorageEngine

/-! ## The sets in memory take the same changes -/

theorem deltaTransaction_eq (height : UInt64) (s : Table OutPoint UtxoEntry × BlockUndo) (t : Transaction) :
    deltaTransaction H height s t = Undo.putAll (Undo.takeAll s t.spends) (UtxoSet.created H height t.isCoinbase t) := rfl

theorem insertAll_putAll {l : List (OutPoint × UtxoEntry)} : ∀ {s s' : UtxoSet} (u : BlockUndo),
    UtxoSet.insertAll s l = (s', .ok ()) → (Undo.putAll (s.entries, u) l).1 = s'.entries := by
  induction l with
  | nil => intro s s' u h; cases h; rfl
  | cons p l ih =>
    obtain ⟨o, e⟩ := p
    intro s s' u h
    unfold UtxoSet.insertAll at h
    split at h
    · cases h
    · rename_i s₁ h₁
      obtain ⟨-, hent⟩ := UtxoSet.insert_ok h₁
      have hput : Undo.put (s.entries, u) o e = (s₁.entries, { u with created := u.created ++ [o] }) := by
        rw [hent]
        rfl
      show (Undo.putAll (Undo.put (s.entries, u) o e) l).1 = s'.entries
      rw [hput]
      exact ih _ h

/-! ## Where each transaction stands -/

/-- Spends distinct outputs that are there, and creates distinct ones that are not. -/
structure Proper (H : Hasher) (unspent : Table OutPoint UtxoEntry) (t : Transaction) : Prop where
  nodup : t.spends.Nodup
  spends : ∀ o ∈ t.spends, ∃ e, unspent[o]? = some e
  distinct : (t.outpoints H).Nodup
  fresh : ∀ o ∈ t.outpoints H, (Table.eraseAll unspent t.spends)[o]? = none

/-- Every transaction is proper where it stands. -/
def ProperBlock (H : Hasher) (height : UInt64) (s : Table OutPoint UtxoEntry × BlockUndo) (txs : List Transaction) : Prop :=
  ∀ before t after, txs = before ++ t :: after → Proper H (delta H height s before).1 t

section
variable {height : UInt64} {s : Table OutPoint UtxoEntry × BlockUndo} {t : Transaction} {txs : List Transaction}

theorem delta_append (rest : List Transaction) :
    delta H height s (txs ++ rest) = delta H height (delta H height s txs) rest := List.foldl_append

theorem delta_snoc : delta H height s (txs ++ [t]) = deltaTransaction H height (delta H height s txs) t := delta_append [t]

namespace ProperBlock

theorem init {rest : List Transaction} (h : ProperBlock H height s (txs ++ rest)) : ProperBlock H height s txs :=
  fun before t after htxs => h before t (after ++ rest) (by rw [htxs, List.append_assoc, List.cons_append])

theorem tail (before : List Transaction) (h : ProperBlock H height s (before ++ txs)) :
    ProperBlock H height (delta H height s before) txs := by
  intro b t after htxs
  rw [← delta_append]
  exact h (before ++ b) t after (by rw [htxs, List.append_assoc])

theorem cons (ht : Proper H s.1 t) (h : ProperBlock H height (deltaTransaction H height s t) txs) :
    ProperBlock H height s (t :: txs) := by
  intro before t' after htxs
  cases before with
  | nil =>
    obtain ⟨rfl, -⟩ := List.cons.inj htxs
    exact ht
  | cons b before =>
    obtain ⟨rfl, hrest⟩ := List.cons.inj htxs
    exact h before t' after hrest

end ProperBlock

/-- A first transaction that leads to `m`, and others that go on from there. -/
theorem ProperBlock.follow {m m' : Table OutPoint UtxoEntry}
    (hfirst : Proper H s.1 t ∧ (deltaTransaction H height s t).1 = m)
    (hrest : ∀ u, ProperBlock H height (m, u) txs ∧ (delta H height (m, u) txs).1 = m') :
    ProperBlock H height s (t :: txs) ∧ (delta H height s (t :: txs)).1 = m' := by
  have hstep : deltaTransaction H height s t = (m, (deltaTransaction H height s t).2) := Prod.ext hfirst.2 rfl
  obtain ⟨hproper, hsame⟩ := hrest (deltaTransaction H height s t).2
  rw [← hstep] at hproper hsame
  exact ⟨.cons hfirst.1 hproper, hsame⟩

end

theorem proper_of_insertAll {removed s' : UtxoSet} {m : Table OutPoint UtxoEntry} {height : UInt64} {t : Transaction}
    (hins : UtxoSet.insertAll removed (UtxoSet.created H height t.isCoinbase t) = (s', .ok ()))
    (hremoved : removed.entries = Table.eraseAll m t.spends) (hnd : t.spends.Nodup)
    (hspends : ∀ o ∈ t.spends, ∃ e, m[o]? = some e) (u : BlockUndo) :
    Proper H m t ∧ (deltaTransaction H height (m, u) t).1 = s'.entries := by
  obtain ⟨hdistinct, hfresh, -, -⟩ := UtxoSet.insertAll_ok hins
  rw [UtxoSet.created_keys] at hdistinct
  refine ⟨⟨hnd, hspends, hdistinct, fun o ho => ?_⟩, ?_⟩
  · rw [← UtxoSet.created_keys height t.isCoinbase t] at ho
    obtain ⟨p, hp, rfl⟩ := List.mem_map.mp ho
    rw [← hremoved]
    exact hfresh p hp
  · have htake : Undo.takeAll (m, u) t.spends = (removed.entries, (Undo.takeAll (m, u) t.spends).2) :=
      Prod.ext (by rw [Undo.takeAll_fst, hremoved]) rfl
    rw [deltaTransaction_eq, htake]
    exact insertAll_putAll _ hins

theorem applyCoinbase_delta {s s' : UtxoSet} {tx : Transaction} {height : UInt64}
    (h : UtxoSet.applyCoinbase H s tx height = (s', .ok ())) (hcb : tx.isCoinbase = true) (u : BlockUndo) :
    Proper H s.entries tx ∧ (deltaTransaction H height (s.entries, u) tx).1 = s'.entries := by
  have hspends : tx.spends = [] := by rw [Transaction.spends, hcb]; rfl
  have hins := (UtxoSet.applyCoinbase_ok h).2
  rw [← hcb] at hins
  refine proper_of_insertAll hins (by rw [hspends]; rfl) ?_ ?_ u
  · rw [hspends]
    exact List.nodup_nil
  · rw [hspends]
    exact fun o ho => absurd ho List.not_mem_nil

/-- One transaction after the coinbase. -/
theorem applyTransaction_delta {s s' : UtxoSet} {tx : Transaction} {height fee : UInt64}
    (h : UtxoSet.applyTransaction H s tx height = (s', .ok fee)) (hcb : tx.isCoinbase = false) (u : BlockUndo) :
    Proper H s.entries tx ∧ (deltaTransaction H height (s.entries, u) tx).1 = s'.entries := by
  have hspends : tx.spends = tx.inputs.map TxIn.previousOutput := by rw [Transaction.spends, hcb]; rfl
  obtain ⟨hv, hins, -⟩ := UtxoSet.applyTransaction_ok h
  rw [← hcb] at hins
  refine proper_of_insertAll hins (by rw [hspends]; rfl) ?_ ?_ u
  · rw [hspends]
    exact (Transaction.validateStateless_ok hv).2
  · rw [hspends]
    exact UtxoSet.applyTransaction_unspent h

theorem applyRest_delta {height : UInt64} {txs : List Transaction} : ∀ {s s' : UtxoSet} {fees fees' : UInt64},
    UtxoSet.applyRest H height s fees txs = .ok (s', fees') → ∀ u,
    ProperBlock H height (s.entries, u) txs ∧ (delta H height (s.entries, u) txs).1 = s'.entries := by
  induction txs with
  | nil =>
    intro s s' fees fees' h u
    cases h
    exact ⟨fun before t after htxs => absurd htxs (by simp), rfl⟩
  | cons tx txs ih =>
    intro s s' fees fees' h u
    obtain ⟨hcb, s₁, fee, fees₁, hap, -, hrest⟩ := UtxoSet.applyRest_cons h
    exact ProperBlock.follow (applyTransaction_delta hap hcb u) (ih hrest)

/-- The transactions of a block that applies. -/
theorem applyBlock_proper {s s' : UtxoSet} {txs : List Transaction} {height fees : UInt64}
    (h : UtxoSet.applyBlock H s txs height = .ok (s', fees)) (u : BlockUndo) :
    ProperBlock H height (s.entries, u) txs ∧ (delta H height (s.entries, u) txs).1 = s'.entries := by
  obtain ⟨cb, rest, s₁, rfl, hcb, hapcb, hrest⟩ := UtxoSet.applyBlock_ok h
  exact ProperBlock.follow (applyCoinbase_delta hapcb hcb u) (applyRest_delta hrest)

/-! ## The record of what was spent -/

/-- The entry transactions leave at an outpoint: the last they create there. -/
def lastCreated (H : Hasher) (height : UInt64) (txs : List Transaction) : OutPoint → Option UtxoEntry :=
  Table.lastOf (txs.flatMap fun t => UtxoSet.created H height t.isCoinbase t)

section
variable {height : UInt64} {m : Table OutPoint UtxoEntry} {txs : List Transaction}

theorem logged_delta (h : ProperBlock H height (m, Undo.empty) txs) : Undo.Logged m (delta H height (m, Undo.empty) txs) := by
  induction txs using List.reverseRecOn with
  | nil => exact Undo.logged_empty m
  | append_singleton txs t ih =>
    have ht := h txs t [] rfl
    rw [delta_snoc, deltaTransaction_eq]
    refine ((ih h.init).takeAll t.spends).putAll ?_ fun o ho => ?_
    · rw [UtxoSet.created_keys]
      exact ht.distinct
    · rw [UtxoSet.created_keys] at ho
      rw [Undo.takeAll_fst]
      exact ht.fresh o ho

/-- What is unspent was created last there, or was there before. -/
theorem get_delta {o : OutPoint} {e : UtxoEntry} (h : (delta H height (m, Undo.empty) txs).1[o]? = some e) :
    (lastCreated H height txs o).or m[o]? = some e := by
  induction txs using List.reverseRecOn with
  | nil => exact h
  | append_singleton txs t ih =>
    rw [delta_snoc, deltaTransaction_eq, Undo.putAll_fst, Table.get_insertAll_last, Undo.takeAll_fst, Table.get_eraseAll] at h
    rw [lastCreated, List.flatMap_append, Table.lastOf_append, List.flatMap_singleton, Option.or_assoc]
    cases hlast : Table.lastOf (UtxoSet.created H height t.isCoinbase t) o with
    | some e' =>
      rw [hlast] at h
      exact h
    | none =>
      rw [hlast, Option.none_or] at h
      rw [Option.none_or]
      split at h
      · cases h
      · exact ih h

theorem taken_deltaTransaction (s : Table OutPoint UtxoEntry × BlockUndo) {t : Transaction} (hnd : t.spends.Nodup) (o : OutPoint) :
    (deltaTransaction H height s t).2.taken o = if o ∈ t.spends then s.1[o]?.or (s.2.taken o) else s.2.taken o := by
  rw [deltaTransaction_eq, Undo.taken, Undo.putAll_spent]
  exact Undo.taken_takeAll hnd s o

theorem taken_delta_of_unspent {s : Table OutPoint UtxoEntry × BlockUndo} (h : ProperBlock H height s txs) {o : OutPoint}
    (ho : ∀ t ∈ txs, o ∉ t.spends) : (delta H height s txs).2.taken o = s.2.taken o := by
  induction txs using List.reverseRecOn with
  | nil => rfl
  | append_singleton txs t ih =>
    rw [delta_snoc, taken_deltaTransaction _ (h txs t [] rfl).nodup, if_neg (ho t (by simp))]
    exact ih h.init fun t' ht' => ho t' (List.mem_append_left _ ht')

/-- What is spent last is recorded as it then was. -/
theorem taken_delta_of_last {s : Table OutPoint UtxoEntry × BlockUndo} {before after : List Transaction} {t : Transaction}
    (h : ProperBlock H height s (before ++ t :: after)) {o : OutPoint} (ho : o ∈ t.spends)
    (hlast : ∀ t' ∈ after, o ∉ t'.spends) :
    (delta H height s (before ++ t :: after)).2.taken o = (delta H height s before).1[o]? := by
  have ht := h before t after rfl
  obtain ⟨e, he⟩ := ht.spends o ho
  have hsplit : before ++ t :: after = (before ++ [t]) ++ after := by simp
  rw [hsplit] at h ⊢
  rw [delta_append, taken_delta_of_unspent (h.tail (before ++ [t])) hlast, delta_snoc, taken_deltaTransaction _ ht.nodup, if_pos ho, he,
    Option.some_or]

/-- What is spent is spent last somewhere. -/
theorem exists_last_spend {o : OutPoint} (h : ∃ t ∈ txs, o ∈ t.spends) :
    ∃ before t after, txs = before ++ t :: after ∧ o ∈ t.spends ∧ ∀ t' ∈ after, o ∉ t'.spends := by
  induction txs using List.reverseRecOn with
  | nil => simp at h
  | append_singleton txs t ih =>
    by_cases ht : o ∈ t.spends
    · exact ⟨txs, t, [], rfl, ht, by simp⟩
    · obtain ⟨before, t', after, rfl, ho, hlast⟩ := ih <| by
        obtain ⟨t', ht', ho⟩ := h
        rcases List.mem_append.mp ht' with ht' | ht'
        · exact ⟨t', ht', ho⟩
        · rw [List.mem_singleton.mp ht'] at ho
          exact absurd ho ht
      refine ⟨before, t', after ++ [t], by simp, ho, fun t'' ht'' => ?_⟩
      rcases List.mem_append.mp ht'' with ht'' | ht''
      · exact hlast t'' ht''
      · rw [List.mem_singleton.mp ht'']
        exact ht

/-- What the block spends last at an outpoint is what was there before the block: an output of
    its own only where the very same entry was there. -/
def SpendsOld (H : Hasher) (height : UInt64) (m : Table OutPoint UtxoEntry) (txs : List Transaction) : Prop :=
  ∀ before t after, txs = before ++ t :: after → ∀ o ∈ t.spends, (∀ t' ∈ after, o ∉ t'.spends) →
    ∀ e, lastCreated H height before o = some e → m[o]? = some e

/-- The undo record of a block takes its changes back exactly when the block spends old
    outputs. -/
theorem revert_delta_iff (h : ProperBlock H height (m, Undo.empty) txs) :
    (delta H height (m, Undo.empty) txs).2.revert (delta H height (m, Undo.empty) txs).1 = m ↔ SpendsOld H height m txs := by
  rw [(logged_delta h).revert_eq_iff]
  constructor
  · intro hall before t after htxs o ho hlast e he
    subst htxs
    obtain ⟨v, hv⟩ := (h before t after rfl).spends o ho
    have hcreated := get_delta hv
    rw [he, Option.some_or] at hcreated
    cases hcreated
    exact hall o e (by rw [taken_delta_of_last h ho hlast, hv])
  · intro hold o v hv
    have hspent : ∃ t ∈ txs, o ∈ t.spends := by
      by_contra hno
      rw [taken_delta_of_unspent h fun t ht ho => hno ⟨t, ht, ho⟩] at hv
      cases hv
    obtain ⟨before, t, after, rfl, ho, hlast⟩ := exists_last_spend hspent
    rw [taken_delta_of_last h ho hlast] at hv
    have hcreated := get_delta hv
    cases he : lastCreated H height before o with
    | none =>
      rw [he, Option.none_or] at hcreated
      exact hcreated
    | some e =>
      rw [he, Option.some_or] at hcreated
      cases hcreated
      exact hold before t after rfl o ho hlast v he

/-- A block that spends none of its own outputs. -/
theorem OwnFree.spendsOld (h : OwnFree H txs) : SpendsOld H height m txs := by
  intro before t after htxs o ho _ e he
  have hcreated : o ∈ (before.flatMap fun t => UtxoSet.created H height t.isCoinbase t).map (·.1) := by
    by_contra hno
    rw [lastCreated, Table.lastOf_eq_none_iff.mpr hno] at he
    cases he
  rw [List.map_flatMap] at hcreated
  obtain ⟨earlier, hearlier, hcreated⟩ := List.mem_flatMap.mp hcreated
  rw [UtxoSet.created_keys] at hcreated
  rw [OwnFree, htxs, List.pairwise_append] at h
  unfold Transaction.spends at ho
  split at ho
  · cases ho
  · obtain ⟨i, hi, rfl⟩ := List.mem_map.mp ho
    exact absurd hcreated (h.2.2 earlier hearlier t List.mem_cons_self i hi)

end

/-- A block that applies: the storage's changes lead to the same entries, and can be taken
    back when the block does not spend its own outputs. -/
theorem applyBlock_delta {s s' : UtxoSet} {txs : List Transaction} {height fees : UInt64}
    (h : UtxoSet.applyBlock H s txs height = .ok (s', fees)) :
    (delta H height (s.entries, Undo.empty) txs).1 = s'.entries ∧
      (OwnFree H txs → (delta H height (s.entries, Undo.empty) txs).2.revert s'.entries = s.entries) := by
  obtain ⟨hproper, hsame⟩ := applyBlock_proper h Undo.empty
  refine ⟨hsame, fun hfree => ?_⟩
  rw [← hsame]
  exact (revert_delta_iff hproper).mpr hfree.spendsOld

end Scytale
