/-
  Scytale.Core.Utxo — the set of unspent outputs and the block transition
  (crates/scytale-core/src/utxo.rs).

  `applyTransaction` and `applyCoinbase` change the set in place, also when an insertion
  fails half way, so they return the set they leave with the result; `applyBlock` works
  on a copy and gives no set on failure.
  - `insertAll_ok`: outputs that were all inserted were fresh and distinct, and exactly
    they are new.
  - `applyTransaction_ok` / `applyCoinbase_ok`: a transaction that applies erases the
    outputs it spends and inserts the ones it creates.
  - `applyBlock_ok`: a block that applies is its coinbase and then its other
    transactions, each applied to the set the one before left.
-/
import Scytale.Core.Block

namespace Scytale

open Lib

structure UtxoEntry where
  output : TxOut
  blockHeight : UInt64
  isCoinbase : Bool
  deriving DecidableEq

structure UtxoSet where
  entries : Table OutPoint UtxoEntry
  deriving DecidableEq

inductive UtxoError where
  | duplicateOutPoint (o : OutPoint)
  | missingUtxo (o : OutPoint)
  | valueDeficit (totalIn totalOut : UInt64)
  | arithmeticOverflow
  | txError (e : TransactionError)
  | invalidCoinbasePlacement
  deriving DecidableEq

namespace UtxoSet

def new : UtxoSet := ⟨∅⟩

def insert (s : UtxoSet) (o : OutPoint) (e : UtxoEntry) : Except UtxoError UtxoSet :=
  if s.entries.contains o then .error (.duplicateOutPoint o) else .ok ⟨s.entries.insert o e⟩

/-- The checked sum of `total_quanta`. -/
def sumValues : UInt64 → List UtxoEntry → Except UtxoError UInt64
  | total, [] => .ok total
  | total, e :: es =>
    match checkedAdd total e.output.value with
    | some t => sumValues t es
    | none => .error .arithmeticOverflow

def totalQuanta (s : UtxoSet) : Except UtxoError UInt64 := sumValues 0 (s.entries.toList.map (·.2))

/-- The first loop of `apply_transaction`: every input is unspent; their checked sum. -/
def sumInputs (s : UtxoSet) : UInt64 → List TxIn → Except UtxoError UInt64
  | total, [] => .ok total
  | total, i :: is =>
    match s.entries[i.previousOutput]? with
    | none => .error (.missingUtxo i.previousOutput)
    | some e =>
      match checkedAdd total e.output.value with
      | some t => sumInputs s t is
      | none => .error .arithmeticOverflow

/-- The outputs a transaction adds, from index `idx` on: data carriers are passed over,
    the others keep their index. -/
def createdFrom (txid : Hash256) (height : UInt64) (cb : Bool) : Nat → List TxOut → List (OutPoint × UtxoEntry)
  | _, [] => []
  | idx, o :: os =>
    if o.isOpReturn then createdFrom txid height cb (idx + 1) os
    else (⟨txid, UInt32.ofNat idx⟩, ⟨o, height, cb⟩) :: createdFrom txid height cb (idx + 1) os

/-- The insertion loop: it stops at the first duplicate, what it inserted before stays. -/
def insertAll : UtxoSet → List (OutPoint × UtxoEntry) → UtxoSet × Except UtxoError Unit
  | s, [] => (s, .ok ())
  | s, (o, e) :: l =>
    match s.insert o e with
    | .error err => (s, .error err)
    | .ok s' => insertAll s' l

def removeInputs (s : UtxoSet) (is : List TxIn) : UtxoSet := ⟨Table.eraseAll s.entries (is.map TxIn.previousOutput)⟩

section
variable (H : Hasher)

/-- What a transaction creates. -/
def created (height : UInt64) (cb : Bool) (tx : Transaction) : List (OutPoint × UtxoEntry) :=
  createdFrom (tx.txid H) height cb 0 tx.outputs

def applyTransaction (s : UtxoSet) (tx : Transaction) (height : UInt64) : UtxoSet × Except UtxoError UInt64 :=
  match tx.validateStateless with
  | .error e => (s, .error (.txError e))
  | .ok () =>
    match sumInputs s 0 tx.inputs with
    | .error e => (s, .error e)
    | .ok totalIn =>
      match tx.totalOutputQuanta with
      | .error e => (s, .error (.txError e))
      | .ok totalOut =>
        if totalOut > totalIn then (s, .error (.valueDeficit totalIn totalOut))
        else match insertAll (s.removeInputs tx.inputs) (created H height false tx) with
          | (s', .error e) => (s', .error e)
          | (s', .ok ()) => (s', .ok (totalIn - totalOut))

def applyCoinbase (s : UtxoSet) (tx : Transaction) (height : UInt64) : UtxoSet × Except UtxoError Unit :=
  if tx.outputs.isEmpty then (s, .error (.txError .emptyOutputs))
  else if tx.outputs.any (fun o => o.value == 0 && !o.isOpReturn) then (s, .error (.txError .zeroOutputValue))
  else match tx.totalOutputQuanta with
    | .error e => (s, .error (.txError e))
    | .ok _ => insertAll s (created H height true tx)

/-- The loop over the transactions after the coinbase, with the fees so far. -/
def applyRest (height : UInt64) : UtxoSet → UInt64 → List Transaction → Except UtxoError (UtxoSet × UInt64)
  | s, fees, [] => .ok (s, fees)
  | s, fees, tx :: txs =>
    if tx.isCoinbase then .error .invalidCoinbasePlacement
    else match applyTransaction H s tx height with
      | (_, .error e) => .error e
      | (s', .ok fee) =>
        match checkedAdd fees fee with
        | none => .error .arithmeticOverflow
        | some fees => applyRest height s' fees txs

def applyBlock (s : UtxoSet) (txs : List Transaction) (height : UInt64) : Except UtxoError (UtxoSet × UInt64) :=
  match txs with
  | [] => .error (.txError .emptyOutputs)
  | cb :: rest =>
    if !cb.isCoinbase then .error .invalidCoinbasePlacement
    else match applyCoinbase H s cb height with
      | (_, .error e) => .error e
      | (s', .ok ()) => applyRest H height s' 0 rest

def applyBlockTransactions (s : UtxoSet) (coinbase : Transaction) (txs : List Transaction) (height : UInt64) :
    Except UtxoError (UtxoSet × UInt64) := applyBlock H s (coinbase :: txs) height

/-! ## The commitment to the set -/

/-- `b"SCYTALE_UTXO_LEAF_V1"`. -/
def utxoLeafTag : Bytes :=
  [0x53, 0x43, 0x59, 0x54, 0x41, 0x4c, 0x45, 0x5f, 0x55, 0x54, 0x58, 0x4f, 0x5f, 0x4c, 0x45, 0x41, 0x46, 0x5f, 0x56, 0x31]

def computeUtxoLeaf (o : OutPoint) (out : TxOut) : Hash256 :=
  H (utxoLeafTag ++ o.txid.bytes ++ u32le o.index ++ u64le out.value ++ out.lockingCondition)

/-- One level of the tree; an odd last node is paired with itself. -/
def merkleLevel : List Hash256 → List Hash256
  | a :: b :: l => H (a.bytes ++ b.bytes) :: merkleLevel l
  | [a] => [H (a.bytes ++ a.bytes)]
  | [] => []

/-- Levels until one node is left. Each level is shorter, so the number of leaves is
    fuel enough. -/
def merkleLoop : Nat → List Hash256 → Hash256
  | _, [] => Hash256.zero
  | _, [a] => a
  | 0, a :: _ => a
  | f + 1, l => merkleLoop f (merkleLevel H l)

def computeUtxoMerkleRoot (leaves : List Hash256) : Hash256 := merkleLoop H leaves.length leaves

/-- The table lists its entries by txid, then index: the order the source sorts into. -/
def computeUtxoRoot (s : UtxoSet) : Hash256 :=
  computeUtxoMerkleRoot H (s.entries.toList.map fun p => computeUtxoLeaf H p.1 p.2.output)

end

/-! ## What the loops do -/

theorem insert_ok {s s' : UtxoSet} {o : OutPoint} {e : UtxoEntry} (h : s.insert o e = .ok s') :
    s.entries[o]? = none ∧ s'.entries = s.entries.insert o e := by
  unfold insert at h
  split at h
  · cases h
  · rename_i hc
    cases h
    exact ⟨(Table.not_contains_iff _ _).mp (Bool.eq_false_of_not_eq_true hc), rfl⟩

/-- Outputs that were all inserted were fresh and distinct, and exactly they are new. -/
theorem insertAll_ok {l : List (OutPoint × UtxoEntry)} : ∀ {s s' : UtxoSet}, insertAll s l = (s', .ok ()) →
    (l.map (·.1)).Nodup ∧ (∀ p ∈ l, s.entries[p.1]? = none) ∧ (∀ p ∈ l, s'.entries[p.1]? = some p.2) ∧
      ∀ o, o ∉ l.map (·.1) → s'.entries[o]? = s.entries[o]? := by
  induction l with
  | nil =>
    intro s s' h
    cases h
    exact ⟨List.nodup_nil, by simp, by simp, fun _ _ => rfl⟩
  | cons p l ih =>
    obtain ⟨o, e⟩ := p
    intro s s' h
    unfold insertAll at h
    split at h
    · cases h
    · rename_i s₁ h₁
      obtain ⟨hnone, hent⟩ := insert_ok h₁
      obtain ⟨hnd, hfresh, hin, hout⟩ := ih h
      -- the rest was fresh after `o` went in, so `o` is not among it
      have ho : o ∉ l.map (·.1) := by
        intro hm
        obtain ⟨q, hq, rfl⟩ := List.mem_map.mp hm
        have := hfresh q hq
        rw [hent, Table.get_insert_self] at this
        cases this
      have hne : ∀ q ∈ l, o ≠ q.1 := fun q hq e => ho (List.mem_map.mpr ⟨q, hq, e.symm⟩)
      refine ⟨List.nodup_cons.mpr ⟨ho, hnd⟩, ?_, ?_, ?_⟩
      · intro q hq
        rcases List.mem_cons.mp hq with rfl | hq
        · exact hnone
        · rw [← hfresh q hq, hent, Table.get_insert_ne _ _ (hne q hq)]
      · intro q hq
        rcases List.mem_cons.mp hq with rfl | hq
        · rw [hout _ ho, hent, Table.get_insert_self]
        · exact hin q hq
      · intro k hk
        simp only [List.map_cons, List.mem_cons, not_or] at hk
        rw [hout k hk.2, hent, Table.get_insert_ne _ _ (fun e => hk.1 e.symm)]

/-- Fresh, distinct outputs can all be inserted. -/
theorem insertAll_of_fresh {l : List (OutPoint × UtxoEntry)} : ∀ {s : UtxoSet}, (l.map (·.1)).Nodup →
    (∀ p ∈ l, s.entries[p.1]? = none) → ∃ s', insertAll s l = (s', .ok ()) := by
  induction l with
  | nil => intro s _ _; exact ⟨s, rfl⟩
  | cons p l ih =>
    obtain ⟨o, e⟩ := p
    intro s hnd hf
    obtain ⟨ho, hnd⟩ := List.nodup_cons.mp hnd
    have hins : s.insert o e = .ok ⟨s.entries.insert o e⟩ := by
      rw [insert, if_neg]
      rw [(Table.not_contains_iff _ _).mpr (hf _ List.mem_cons_self)]
      decide
    unfold insertAll
    rw [hins]
    refine ih hnd fun q hq => ?_
    rw [Table.get_insert_ne _ _ fun e => ho (List.mem_map.mpr ⟨q, hq, e.symm⟩)]
    exact hf q (List.mem_cons_of_mem _ hq)

theorem get_removeInputs (s : UtxoSet) (is : List TxIn) (o : OutPoint) :
    (s.removeInputs is).entries[o]? = if o ∈ is.map TxIn.previousOutput then none else s.entries[o]? :=
  Table.get_eraseAll _ _ _

def valueSum (es : List UtxoEntry) : Nat := (es.map fun e => e.output.value.toNat).sum

theorem sumInputs_ok {s : UtxoSet} {is : List TxIn} : ∀ {total r : UInt64}, sumInputs s total is = .ok r →
    ∃ spent : List UtxoEntry, is.map (fun i => s.entries[i.previousOutput]?) = spent.map some ∧
      r.toNat = total.toNat + valueSum spent := by
  induction is with
  | nil => intro total r h; cases h; exact ⟨[], rfl, rfl⟩
  | cons i is ih =>
    intro total r h
    unfold sumInputs at h
    split at h
    · cases h
    · rename_i e he
      split at h
      · rename_i t ht
        obtain ⟨spent, h1, h2⟩ := ih h
        refine ⟨e :: spent, by rw [List.map_cons, List.map_cons, he, h1], ?_⟩
        rw [h2, checkedAdd_eq_some ht, valueSum, valueSum, List.map_cons, List.sum_cons]
        omega
      · cases h

/-- A transaction that applies passes the stateless checks, spends entries of the set,
    and leaves the set without them and with what it creates; the fee is the difference
    in value. -/
theorem applyTransaction_ok {H : Hasher} {s s' : UtxoSet} {tx : Transaction} {height fee : UInt64}
    (h : applyTransaction H s tx height = (s', .ok fee)) :
    tx.validateStateless = .ok () ∧
      insertAll (s.removeInputs tx.inputs) (created H height false tx) = (s', .ok ()) ∧
      ∃ spent : List UtxoEntry, tx.inputs.map (fun i => s.entries[i.previousOutput]?) = spent.map some ∧
        fee.toNat + Transaction.outputSum tx.outputs = valueSum spent := by
  unfold applyTransaction at h
  split at h
  · cases h
  · rename_i hv
    split at h
    · cases h
    · rename_i totalIn hin
      split at h
      · cases h
      · rename_i totalOut hout
        split at h
        · cases h
        · rename_i hle
          split at h
          · cases h
          · rename_i s₁ hins
            cases h
            obtain ⟨spent, hs, hsum⟩ := sumInputs_ok hin
            refine ⟨hv, hins, spent, hs, ?_⟩
            have hle : totalOut ≤ totalIn := UInt64.not_lt.mp hle
            have h1 := UInt64.toNat_sub_of_le _ _ hle
            have h2 := Transaction.totalOutputQuanta_ok hout
            have h3 := UInt64.le_iff_toNat_le.mp hle
            have h0 : (0 : UInt64).toNat = 0 := rfl
            rw [h0, Nat.zero_add] at hsum
            omega

/-- It spends what is there. -/
theorem applyTransaction_unspent {H : Hasher} {s s' : UtxoSet} {tx : Transaction} {height fee : UInt64}
    (h : applyTransaction H s tx height = (s', .ok fee)) :
    ∀ o ∈ tx.inputs.map TxIn.previousOutput, ∃ e, s.entries[o]? = some e := by
  intro o ho
  obtain ⟨i, hi, rfl⟩ := List.mem_map.mp ho
  obtain ⟨-, -, spent, hspent, -⟩ := applyTransaction_ok h
  have hm : s.entries[i.previousOutput]? ∈ spent.map some := by
    rw [← hspent]
    exact List.mem_map.mpr ⟨i, hi, rfl⟩
  obtain ⟨e, -, he⟩ := List.mem_map.mp hm
  exact ⟨e, he.symm⟩

theorem applyCoinbase_ok {H : Hasher} {s s' : UtxoSet} {tx : Transaction} {height : UInt64}
    (h : applyCoinbase H s tx height = (s', .ok ())) :
    tx.outputs ≠ [] ∧ insertAll s (created H height true tx) = (s', .ok ()) := by
  unfold applyCoinbase at h
  split at h
  · cases h
  · rename_i hne
    split at h
    · cases h
    · split at h
      · cases h
      · exact ⟨by simpa using hne, h⟩

/-- Applying the transactions after the coinbase one by one. -/
theorem applyRest_cons {H : Hasher} {height : UInt64} {s s' : UtxoSet} {fees fees' : UInt64} {tx : Transaction}
    {txs : List Transaction} (h : applyRest H height s fees (tx :: txs) = .ok (s', fees')) :
    tx.isCoinbase = false ∧ ∃ s₁ fee fees₁, applyTransaction H s tx height = (s₁, .ok fee) ∧
      checkedAdd fees fee = some fees₁ ∧ applyRest H height s₁ fees₁ txs = .ok (s', fees') := by
  unfold applyRest at h
  split at h
  · cases h
  · rename_i hc
    split at h
    · cases h
    · rename_i s₁ fee hap
      split at h
      · cases h
      · rename_i fees₁ hadd
        exact ⟨by simpa using hc, s₁, fee, fees₁, hap, hadd, h⟩

theorem applyBlock_ok {H : Hasher} {s s' : UtxoSet} {txs : List Transaction} {height fees : UInt64}
    (h : applyBlock H s txs height = .ok (s', fees)) :
    ∃ cb rest s₁, txs = cb :: rest ∧ cb.isCoinbase = true ∧ applyCoinbase H s cb height = (s₁, .ok ()) ∧
      applyRest H height s₁ 0 rest = .ok (s', fees) := by
  unfold applyBlock at h
  split at h
  · cases h
  · rename_i cb rest
    split at h
    · cases h
    · rename_i hc
      split at h
      · cases h
      · rename_i s₁ hcb
        exact ⟨cb, rest, s₁, rfl, by simpa using hc, hcb, h⟩

end UtxoSet

/-- The outpoints a transaction spends: a coinbase none. -/
def Transaction.spends (t : Transaction) : List OutPoint := if t.isCoinbase then [] else t.inputs.map TxIn.previousOutput

/-- The outpoints a transaction creates. -/
def Transaction.outpoints (H : Hasher) (t : Transaction) : List OutPoint := (UtxoSet.created H 0 false t).map (·.1)

namespace UtxoSet

theorem createdFrom_keys (txid : Hash256) (h h' : UInt64) (cb cb' : Bool) (os : List TxOut) : ∀ idx : Nat,
    (createdFrom txid h cb idx os).map (·.1) = (createdFrom txid h' cb' idx os).map (·.1) := by
  induction os with
  | nil => intro idx; rfl
  | cons o os ih =>
    intro idx
    simp only [createdFrom]
    split
    · exact ih _
    · rw [List.map_cons, List.map_cons, ih]

/-- They do not depend on the height, nor on which rule applies the transaction. -/
theorem created_keys {H : Hasher} (h : UInt64) (cb : Bool) (t : Transaction) : (created H h cb t).map (·.1) = t.outpoints H :=
  createdFrom_keys _ _ _ _ _ _ _

end UtxoSet

end Scytale
