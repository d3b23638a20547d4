/-
  Scytale.Mining.Collected — the fees a template collects (crates/scytale-mining/src/worker.rs).

  `build_template` sums the fees the pool recorded, `apply_block` the fees the block pays.
  - `buildTemplate_ok`: everything a template that was built is.
  - `template_fees`: on a pool with named entries the two sums are one.
-/
import Scytale.Mining.Template
import Scytale.Mempool.Fees

namespace Scytale

open Lib

variable {H : Hasher} {naming : Naming}

/-! ## The transactions taken -/

theorem selectTransactions_mem {m : Mempool} {maxBytes : Nat} {t : Transaction}
    (h : t ∈ (m.selectTransactionsForBlock maxBytes).1) : ∃ (id : Hash256) (e : MempoolEntry), m.entries[id]? = some e ∧ e.transaction = t := by
  suffices hs : ∀ (keys : List PriorityKey) (s : Mempool.Selection),
      (∀ t ∈ s.txs, ∃ (id : Hash256) (e : MempoolEntry), m.entries[id]? = some e ∧ e.transaction = t) →
      ∀ t ∈ (keys.foldl (m.selectOne maxBytes) s).txs, ∃ (id : Hash256) (e : MempoolEntry), m.entries[id]? = some e ∧ e.transaction = t from
    hs _ ⟨[], 0, 0, ∅⟩ (by simp) t h
  intro keys
  induction keys with
  | nil => intro s hs; exact hs
  | cons key keys ih =>
    intro s hs
    rw [List.foldl_cons]
    refine ih _ ?_
    unfold Mempool.selectOne
    split
    · exact hs
    · rename_i entry hentry
      split
      · intro t ht
        rcases List.mem_append.mp ht with ht | ht
        · exact hs t ht
        · exact ⟨_, entry, hentry, (List.mem_singleton.mp ht).symm⟩
      · exact hs

/-- The fee the pool holds for a transaction. -/
def recordedFee (H : Hasher) (m : Mempool) (t : Transaction) : Nat :=
  match m.get (t.txid H) with
  | some entry => entry.fee.toNat
  | none => 0

/-- Saturating sums. -/
theorem pick_fees {u : UtxoSet} {m : Mempool} {l : List Transaction} : ∀ {s : Picked},
    s.totalFees.toNat = min (s.selectedTxs.map (recordedFee H m)).sum (2 ^ 64 - 1) →
    (l.foldl (Picked.pick H u m) s).totalFees.toNat =
        min ((l.foldl (Picked.pick H u m) s).selectedTxs.map (recordedFee H m)).sum (2 ^ 64 - 1) ∧
      ∀ t ∈ (l.foldl (Picked.pick H u m) s).selectedTxs, t ∈ s.selectedTxs ∨ t ∈ l := by
  induction l with
  | nil => intro s hs; exact ⟨hs, fun t ht => .inl ht⟩
  | cons tx l ih =>
    intro s hs
    rw [List.foldl_cons]
    have hstep : (Picked.pick H u m s tx).totalFees.toNat =
          min ((Picked.pick H u m s tx).selectedTxs.map (recordedFee H m)).sum (2 ^ 64 - 1) ∧
        ∀ t ∈ (Picked.pick H u m s tx).selectedTxs, t ∈ s.selectedTxs ∨ t = tx := by
      unfold Picked.pick
      split
      · refine ⟨?_, fun t ht => ?_⟩
        · simp only [List.map_append, List.map_singleton, List.sum_append, List.sum_singleton, recordedFee]
          cases m.get (tx.txid H) with
          | none =>
            rw [hs]
            rfl
          | some entry =>
            have hlt : min (s.totalFees.toNat + entry.fee.toNat) (2 ^ 64 - 1) < 2 ^ 64 := by omega
            simp only [UInt64.toNat_ofNat', Nat.mod_eq_of_lt hlt]
            omega
        · rcases List.mem_append.mp ht with ht | ht
          · exact .inl ht
          · exact .inr (List.mem_singleton.mp ht)
      · exact ⟨hs, fun t ht => .inl ht⟩
    obtain ⟨h1, h2⟩ := ih hstep.1
    refine ⟨h1, fun t ht => ?_⟩
    rcases h2 t ht with ht | ht
    · rcases hstep.2 t ht with ht | rfl
      · exact .inl ht
      · exact .inr List.mem_cons_self
    · exact .inr (List.mem_cons_of_mem _ ht)

theorem pickTransactions_named (utxos : UtxoSet) {m : Mempool} (hm : PoolNamed H naming m) :
    (∀ t ∈ (pickTransactions H utxos m).selectedTxs, Named H naming t ∧ NamedFee naming t (recordedFee H m t)) ∧
      (pickTransactions H utxos m).totalFees.toNat =
        min ((pickTransactions H utxos m).selectedTxs.map (recordedFee H m)).sum (2 ^ 64 - 1) := by
  have hstart : (⟨[], 0, ∅⟩ : Picked).totalFees.toNat =
      min (((⟨[], 0, ∅⟩ : Picked).selectedTxs.map (recordedFee H m)).sum) (2 ^ 64 - 1) := rfl
  obtain ⟨hfees, hmem⟩ := pick_fees (u := utxos) (l := (m.selectTransactionsForBlock maxBlockPayloadSize).1) hstart
  refine ⟨fun t ht => ?_, hfees⟩
  rcases hmem t ht with ht | ht
  · cases ht
  · obtain ⟨id, e, he, rfl⟩ := selectTransactions_mem ht
    have hentry := hm id e he
    refine ⟨hentry.named, ?_⟩
    rw [recordedFee, Mempool.get, hentry.key, he]
    exact hentry.fee

/-! ## Templates -/

/-- A template that was built: the tip it extends, its transactions, and the set they lead
    to. -/
structure Built (H : Hasher) (chain : ChainTree) (utxos : UtxoSet) (mempool : Mempool) (compactTarget : UInt32)
    (payout : Bytes) (template : BlockTemplate) (tip : BlockNode) (coinbaseValue : UInt64) (u : UtxoSet)
    (fees : UInt64) : Prop where
  stored : chain.getNode chain.canonicalTip = some tip
  previous : template.previousBlockHash = chain.canonicalTip
  height : template.height = tip.height + 1
  target : template.compactTarget = compactTarget
  reward : checkedAdd (getBlockSubsidy (tip.height + 1)) (pickTransactions H utxos mempool).totalFees = some coinbaseValue
  transactions : template.transactions = Transaction.newCoinbase (tip.height + 1) [⟨coinbaseValue, payout⟩] ::
    (pickTransactions H utxos mempool).selectedTxs
  encodable : template.transactions.all Transaction.encodable = true
  applies : UtxoSet.applyBlock H utxos template.transactions (tip.height + 1) = .ok (u, fees)
  root : template.utxoRoot = u.computeUtxoRoot H

theorem buildTemplate_ok {chain : ChainTree} {utxos : UtxoSet} {mempool : Mempool} {bits : UInt32} {payout : Bytes}
    {now : UInt64} {template : BlockTemplate} (h : buildTemplate H chain utxos mempool bits payout now = .ok template) :
    ∃ tip coinbaseValue u fees, Built H chain utxos mempool bits payout template tip coinbaseValue u fees := by
  unfold buildTemplate at h
  split at h
  · cases h
  · rename_i tip htip
    simp only at h
    split at h
    · cases h
    · rename_i henc
      split at h
      · cases h
      · rename_i coinbaseValue hreward
        split at h
        · cases h
        · rename_i u fees hap
          split at h
          · cases h
          · rename_i hcb
            cases h
            refine ⟨tip, coinbaseValue, u, fees, htip, rfl, rfl, rfl, hreward, rfl, ?_, hap, rfl⟩
            rw [List.all_cons, Bool.and_eq_true]
            exact ⟨by simpa using hcb, by simpa using henc⟩

/-- The block pays exactly the fees the coinbase collects. -/
theorem Built.fees_eq {chain : ChainTree} {utxos : UtxoSet} {m : Mempool} {bits : UInt32} {payout : Bytes}
    {template : BlockTemplate} {tip : BlockNode} {coinbaseValue fees : UInt64} {u : UtxoSet}
    (h : Built H chain utxos m bits payout template tip coinbaseValue u fees) (hm : PoolNamed H naming m)
    (hu : Sourced naming utxos) (hcb : ∀ t ∈ template.transactions.head?, Named H naming t) :
    fees = (pickTransactions H utxos m).totalFees := by
  obtain ⟨hpicked, htotal⟩ := pickTransactions_named utxos hm
  have hap := h.applies
  rw [h.transactions] at hap hcb
  obtain ⟨cb, rest, s₁, htxs, -, hapcb, hrest⟩ := UtxoSet.applyBlock_ok hap
  cases htxs
  obtain ⟨-, hins⟩ := UtxoSet.applyCoinbase_ok hapcb
  have hs₁ := hu.insertAll (hcb _ rfl) hins
  have hsum := applyRest_fees hs₁ (fun t ht => (hpicked t ht).1) (fun t ht => (hpicked t ht).2) hrest
  have h0 : (0 : UInt64).toNat = 0 := rfl
  have hlt := fees.toNat_lt
  refine UInt64.toNat_inj.mp ?_
  rw [h0, Nat.zero_add] at hsum
  omega

end Scytale
