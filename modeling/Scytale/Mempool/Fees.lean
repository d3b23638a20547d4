/-
  Scytale.Mempool.Fees — the fees the pool records (crates/scytale-mempool/src/pool.rs).

  An entry's fee is worked out once, when it is admitted, from the canonical set of that time
  and from its parents in the pool. Under a naming of the outputs it stays the fee.
  - `admitTransaction_named`: an admitted entry has the fee its named inputs leave.
  - `applyRest_fees`: and that is what a block with the transaction pays.
-/
import Scytale.Mempool.Admission
import Scytale.Consensus.Naming

namespace Scytale

open Lib

/-- The fee a transaction leaves: the value of its inputs less that of its outputs. -/
def NamedFee (naming : Naming) (t : Transaction) (fee : Nat) : Prop :=
  ∃ outs : List TxOut, t.inputs.map (fun i => naming i.previousOutput) = outs.map some ∧
    fee + Transaction.outputSum t.outputs = Transaction.outputSum outs

/-- An entry of the pool under the identifier of its transaction, with its fee. -/
structure EntryNamed (H : Hasher) (naming : Naming) (id : Hash256) (e : MempoolEntry) : Prop where
  key : e.transaction.txid H = id
  named : Named H naming e.transaction
  fee : NamedFee naming e.transaction e.fee.toNat

def PoolNamed (H : Hasher) (naming : Naming) (m : Mempool) : Prop :=
  ∀ (id : Hash256) (e : MempoolEntry), m.entries[id]? = some e → EntryNamed H naming id e

variable {H : Hasher} {naming : Naming}

theorem poolNamed_new : PoolNamed H naming Mempool.new := by
  intro id e h
  have hnone : (Mempool.new.entries)[id]? = none := Table.get_empty id
  rw [hnone] at h
  cases h

theorem PoolNamed.within {m m' : Mempool} (h : PoolNamed H naming m) (hw : Table.Within m'.entries m.entries) :
    PoolNamed H naming m' := fun id e he => h id e (hw id e he)

namespace Mempool

/-! ## Admission -/

/-- What the inputs resolve to is what they name. -/
theorem resolveInputs_named {m : Mempool} {utxos : UtxoSet} (hm : PoolNamed H naming m) (hu : Sourced naming utxos)
    {inputs : List TxIn} : ∀ {es es' : List UtxoEntry} {ps ps' : TxidSet},
      m.resolveInputs utxos es ps inputs = .ok (es', ps') → ∃ new : List UtxoEntry, es' = es ++ new ∧
        inputs.map (fun i => naming i.previousOutput) = new.map fun e => some e.output := by
  induction inputs with
  | nil =>
    intro es es' ps ps' h
    cases h
    exact ⟨[], by simp, rfl⟩
  | cons i inputs ih =>
    intro es es' ps ps' h
    have hnext : ∀ {e ps₁}, naming i.previousOutput = some e.output →
        m.resolveInputs utxos (es ++ [e]) ps₁ inputs = .ok (es', ps') → ∃ new : List UtxoEntry, es' = es ++ new ∧
          (i :: inputs).map (fun i => naming i.previousOutput) = new.map fun e => some e.output := by
      intro e ps₁ he h
      obtain ⟨new, hes, hnew⟩ := ih h
      exact ⟨e :: new, by rw [hes, List.append_assoc]; rfl, by rw [List.map_cons, List.map_cons, hnew, he]⟩
    unfold resolveInputs at h
    simp only at h
    split at h
    · rename_i entry hentry
      exact hnext (hu _ _ hentry) h
    · split at h
      · cases h
      · rename_i parent hparent
        split at h
        · cases h
        · rename_i out hout
          have hp := hm _ _ hparent
          exact hnext (hp.named.outputs _ _ hp.key.symm hout) h

theorem sumEntries_ok {es : List UtxoEntry} : ∀ {total r : UInt64}, sumEntries total es = .ok r →
    r.toNat = total.toNat + Transaction.outputSum (es.map (·.output)) := by
  induction es with
  | nil => intro total r h; cases h; simp [Transaction.outputSum]
  | cons e es ih =>
    intro total r h
    unfold sumEntries at h
    split at h
    · rename_i t ht
      have h1 := ih h
      have h2 := checkedAdd_eq_some ht
      simp only [Transaction.outputSum, List.map_cons, List.sum_cons] at h1 ⊢
      omega
    · cases h

section
variable {m : Mempool} {tx : Transaction} {utxos : UtxoSet} {verifier : AuthorizationVerifier} {now : UInt64}

theorem examine_ok {entry : MempoolEntry} {parents : TxidSet} (hm : PoolNamed H naming m) (hu : Sourced naming utxos)
    (htx : Named H naming tx) (h : m.examine H tx utxos verifier now = .ok (entry, parents)) :
    EntryNamed H naming entry.txid entry := by
  obtain ⟨es, hres, -, totalIn, totalOut, hin, hout, hle, rfl, -⟩ := (examine_ok_iff.mp h).resolved
  obtain ⟨new, hes, hnew⟩ := resolveInputs_named hm hu hres
  rw [hes, List.nil_append] at hin
  refine ⟨rfl, htx, new.map (·.output), by rw [List.map_map]; exact hnew, ?_⟩
  have h1 := UInt64.toNat_sub_of_le _ _ hle
  have h2 := Transaction.totalOutputQuanta_ok hout
  have h3 := UInt64.le_iff_toNat_le.mp hle
  have h4 := sumEntries_ok hin
  have h0 : (0 : UInt64).toNat = 0 := rfl
  show (totalIn - totalOut).toNat + Transaction.outputSum tx.outputs = _
  omega

theorem admitTransaction_named (verifier : AuthorizationVerifier) (now : UInt64) (hm : PoolNamed H naming m) (hu : Sourced naming utxos) (htx : Named H naming tx) :
    PoolNamed H naming (m.admitTransaction H tx utxos verifier now).1 := by
  unfold admitTransaction
  split
  · exact hm
  · rename_i entry parents hex
    have hentry := examine_ok hm hu htx hex
    have hroom := hm.within (makeRoom_within entry (m.priorityIndex.size + 1) m)
    split
    · rename_i m₁ e hmk
      rw [hmk] at hroom
      exact hroom
    · rename_i m₁ hmk
      rw [hmk] at hroom
      intro id e he
      have he : (m₁.entries.insert entry.txid entry)[id]? = some e := he
      rw [Table.get_insert] at he
      split at he
      · rename_i heq
        cases he
        rw [← heq]
        exact hentry
      · exact hroom id e he

theorem onReorg_named (hu : Sourced naming utxos) {txs : List Transaction} (hm : PoolNamed H naming m)
    (htxs : ∀ t ∈ txs, Named H naming t) : PoolNamed H naming (m.onReorg H txs utxos verifier now).1 := by
  rw [onReorg_fst]
  refine List.foldlRecOn txs _ hm fun m hm t ht => ?_
  unfold takeBack
  split
  · exact hm
  · exact admitTransaction_named verifier now hm hu (htxs t ht)

end

end Mempool

/-! ## What a block pays -/

/-- The fee of an applied transaction is the one its inputs name. -/
theorem applyTransaction_fee {s s' : UtxoSet} {t : Transaction} {height fee : UInt64} (hs : Sourced naming s)
    (h : UtxoSet.applyTransaction H s t height = (s', .ok fee)) {recorded : Nat} (hr : NamedFee naming t recorded) :
    fee.toNat = recorded := by
  obtain ⟨-, -, spent, hspent, hfee⟩ := UtxoSet.applyTransaction_ok h
  obtain ⟨outs, houts, hrec⟩ := hr
  have hnamed : t.inputs.map (fun i => naming i.previousOutput) = spent.map fun e => some e.output := by
    have hmap : ∀ i ∈ t.inputs, naming i.previousOutput = (s.entries[i.previousOutput]?).map (·.output) := by
      intro i hi
      obtain ⟨e, he⟩ := UtxoSet.applyTransaction_unspent h _ (List.mem_map.mpr ⟨i, hi, rfl⟩)
      rw [he]
      exact hs _ e he
    rw [List.map_congr_left hmap]
    have := congrArg (List.map (Option.map UtxoEntry.output)) hspent
    rw [List.map_map, List.map_map] at this
    exact this
  have hsame : outs = spent.map (·.output) := by
    refine List.map_injective_iff.mpr (Option.some_injective _) ?_
    rw [← houts, hnamed, List.map_map]
    rfl
  have hvalue : Transaction.outputSum outs = UtxoSet.valueSum spent := by
    rw [hsame, Transaction.outputSum, UtxoSet.valueSum, List.map_map]
    rfl
  omega

theorem applyRest_fees {height : UInt64} {recorded : Transaction → Nat} {txs : List Transaction} :
    ∀ {s s' : UtxoSet} {fees fees' : UInt64}, Sourced naming s → (∀ t ∈ txs, Named H naming t) →
      (∀ t ∈ txs, NamedFee naming t (recorded t)) → UtxoSet.applyRest H height s fees txs = .ok (s', fees') →
      fees'.toNat = fees.toNat + (txs.map recorded).sum := by
  induction txs with
  | nil => intro s s' fees fees' _ _ _ h; cases h; simp
  | cons t txs ih =>
    intro s s' fees fees' hs hnamed hfee h
    obtain ⟨-, s₁, fee, fees₁, hap, hadd, hrest⟩ := UtxoSet.applyRest_cons h
    have h1 := applyTransaction_fee hs hap (hfee t List.mem_cons_self)
    have h2 := checkedAdd_eq_some hadd
    have h3 := ih (hs.transaction (hnamed t List.mem_cons_self) hap) (fun a ha => hnamed a (List.mem_cons_of_mem _ ha))
      (fun a ha => hfee a (List.mem_cons_of_mem _ ha)) hrest
    rw [List.map_cons, List.sum_cons]
    omega

end Scytale
