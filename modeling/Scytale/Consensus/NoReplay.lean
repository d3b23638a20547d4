/-
  Scytale.Consensus.NoReplay — when an outpoint is created only once.

  A transaction that spends something cannot come back: what it spent is gone, and comes
  back only if it is created again. So everything rests on the coinbases, which spend
  nothing. The validator does not compare the height a coinbase carries with the block's,
  and the set only refuses an outpoint that is still unspent; a coinbase whose outputs were
  spent can be mined again, and then everything that spent it.
  - `History`: what is known of the transactions applied so far and the set they left.
  - `History.transaction` / `History.coinbase`: one more transaction.
  - `no_replay_iff`: along the canonical chain of every reachable state, no outpoint is
    created twice and no other transaction occurs twice, exactly when the coinbases that
    create an outpoint are pairwise different.
-/
import Scytale.Core.TxIdentity
import Scytale.Consensus.Replay

namespace Scytale

open Lib

section
variable (H : Hasher)

def createdBy (txs : List Transaction) : List OutPoint := txs.flatMap (Transaction.outpoints H)

/-- A coinbase that creates an outpoint. -/
def Transaction.mints (t : Transaction) : Bool := t.isCoinbase && !(t.outpoints H).isEmpty

/-- The transactions of a chain, in order. -/
def chainTxs (path : List BlockNode) : List Transaction := path.flatMap fun n => n.block.transactions

/-- No outpoint is created twice, and no transaction but a coinbase occurs twice. -/
def NoReplay (txs : List Transaction) : Prop :=
  (createdBy H txs).Nodup ∧ (txs.filter fun t => !t.isCoinbase).Nodup

instance (txs : List Transaction) : Decidable (NoReplay H txs) :=
  inferInstanceAs (Decidable ((createdBy H txs).Nodup ∧ (txs.filter fun t => !t.isCoinbase).Nodup))

end

variable {H : Hasher} {genesis : Block}

theorem createdFrom_txid (txid : Hash256) (h : UInt64) (cb : Bool) (os : List TxOut) : ∀ (idx : Nat),
    ∀ p ∈ UtxoSet.createdFrom txid h cb idx os, p.1.txid = txid := by
  induction os with
  | nil => intro idx p hp; cases hp
  | cons o os ih =>
    intro idx p hp
    simp only [UtxoSet.createdFrom] at hp
    split at hp
    · exact ih _ p hp
    · rcases List.mem_cons.mp hp with rfl | hp
      · rfl
      · exact ih _ p hp

theorem outpoints_txid {t : Transaction} {o : OutPoint} (h : o ∈ t.outpoints H) : o.txid = t.txid H := by
  obtain ⟨p, hp, rfl⟩ := List.mem_map.mp h
  exact createdFrom_txid _ _ _ _ _ p hp

/-! ## One transaction after the other -/

/-- The transactions applied so far and the set they left. -/
structure History (H : Hasher) (txs : List Transaction) (s : UtxoSet) : Prop where
  once : NoReplay H txs
  unspent : ∀ {o e}, s.entries[o]? = some e → o ∈ createdBy H txs
  spent : ∀ t ∈ txs, t.isCoinbase = false → t.inputs ≠ [] ∧
    ∀ i ∈ t.inputs, s.entries[i.previousOutput]? = none ∧ i.previousOutput ∈ createdBy H txs

theorem createdBy_append (xs ys : List Transaction) : createdBy H (xs ++ ys) = createdBy H xs ++ createdBy H ys := by
  simp [createdBy]

theorem history_new : History H [] UtxoSet.new := by
  refine ⟨⟨List.nodup_nil, List.nodup_nil⟩, ?_, by simp⟩
  intro o e h
  have : (UtxoSet.new.entries)[o]? = none := Table.get_empty o
  rw [this] at h
  cases h

/-- A transaction with a new identity creates new outpoints. -/
theorem fresh_outpoints {txs : List Transaction} {t : Transaction} (hnew : t ∉ txs)
    (hinj : ∀ a ∈ txs ++ [t], ∀ b ∈ txs ++ [t], a.txid H = b.txid H → a = b) :
    ∀ o ∈ t.outpoints H, o ∉ createdBy H txs := by
  intro o ho hmem
  obtain ⟨a, ha, hoa⟩ := List.mem_flatMap.mp hmem
  have := hinj a (List.mem_append_left _ ha) t (by simp) (by rw [← outpoints_txid hoa, outpoints_txid ho])
  exact hnew (this ▸ ha)

theorem createdBy_snoc_nodup {txs : List Transaction} {t : Transaction} (h : (createdBy H txs).Nodup)
    (ht : (t.outpoints H).Nodup) (hfresh : ∀ o ∈ t.outpoints H, o ∉ createdBy H txs) :
    (createdBy H (txs ++ [t])).Nodup := by
  rw [createdBy_append]
  refine List.nodup_append'.mpr ⟨h, by simpa [createdBy] using ht, ?_⟩
  intro o ho hot
  exact hfresh o (by simpa [createdBy] using hot) ho

/-- Inserting what a transaction creates. -/
theorem mem_insertAll {s s' : UtxoSet} {height : UInt64} {cb : Bool} {t : Transaction}
    (h : UtxoSet.insertAll s (UtxoSet.created H height cb t) = (s', .ok ())) :
    (t.outpoints H).Nodup ∧ ∀ o, o ∉ t.outpoints H → s'.entries[o]? = s.entries[o]? := by
  obtain ⟨hnd, -, -, hout⟩ := UtxoSet.insertAll_ok h
  rw [UtxoSet.created_keys] at hnd hout
  exact ⟨hnd, hout⟩

namespace History

variable {txs : List Transaction} {s s' : UtxoSet} {t : Transaction} {height : UInt64}

theorem transaction {fee : UInt64} (h : History H txs s) (hap : UtxoSet.applyTransaction H s t height = (s', .ok fee))
    (hcb : t.isCoinbase = false) (hinj : ∀ a ∈ txs ++ [t], ∀ b ∈ txs ++ [t], a.txid H = b.txid H → a = b) :
    History H (txs ++ [t]) s' := by
  obtain ⟨hv, hins, -⟩ := UtxoSet.applyTransaction_ok hap
  obtain ⟨hnonempty, -⟩ := Transaction.validateStateless_ok hv
  have hunspent : ∀ i ∈ t.inputs, ∃ e, s.entries[i.previousOutput]? = some e := fun i hi =>
    UtxoSet.applyTransaction_unspent hap _ (List.mem_map.mpr ⟨i, hi, rfl⟩)
  -- what it spends is unspent, so it was not applied before
  have hnew : t ∉ txs := by
    intro hm
    obtain ⟨i, hi⟩ := List.exists_mem_of_ne_nil _ hnonempty
    obtain ⟨e, he⟩ := hunspent i hi
    rw [((h.spent t hm hcb).2 i hi).1] at he
    cases he
  have hfresh := fresh_outpoints hnew hinj
  obtain ⟨hnd, hout⟩ := mem_insertAll hins
  have hget : ∀ {o}, o ∉ t.outpoints H → s'.entries[o]? =
      if o ∈ t.inputs.map TxIn.previousOutput then none else s.entries[o]? := by
    intro o ho
    rw [hout o ho, UtxoSet.get_removeInputs]
  refine ⟨⟨createdBy_snoc_nodup h.once.1 hnd hfresh, ?_⟩, ?_, ?_⟩
  · rw [List.filter_append]
    refine List.nodup_append'.mpr ⟨h.once.2, by simp [hcb], ?_⟩
    intro a ha ha'
    have : a = t := by simpa [hcb] using ha'
    exact hnew (this ▸ (List.mem_filter.mp ha).1)
  · intro o e ho
    rw [createdBy_append]
    by_cases hot : o ∈ t.outpoints H
    · exact List.mem_append_right _ (by simpa [createdBy] using hot)
    · rw [hget hot] at ho
      split at ho
      · cases ho
      · exact List.mem_append_left _ (h.unspent ho)
  · intro a ha hacb
    have hgone : ∀ i ∈ a.inputs, i.previousOutput ∈ createdBy H txs ∧
        (i.previousOutput ∈ t.inputs.map TxIn.previousOutput ∨ s.entries[i.previousOutput]? = none) := by
      intro i hi
      rcases List.mem_append.mp ha with ha | ha
      · obtain ⟨h1, h2⟩ := (h.spent a ha hacb).2 i hi
        exact ⟨h2, Or.inr h1⟩
      · have : a = t := by simpa using ha
        subst this
        obtain ⟨e, he⟩ := hunspent i hi
        exact ⟨h.unspent he, Or.inl (List.mem_map.mpr ⟨i, hi, rfl⟩)⟩
    refine ⟨?_, fun i hi => ?_⟩
    · rcases List.mem_append.mp ha with ha | ha
      · exact (h.spent a ha hacb).1
      · have : a = t := by simpa using ha
        rw [this]
        exact hnonempty
    · obtain ⟨hc, hg⟩ := hgone i hi
      rw [createdBy_append]
      refine ⟨?_, List.mem_append_left _ hc⟩
      rw [hget fun hot => hfresh _ hot hc]
      split
      · rfl
      · rename_i hin
        exact hg.resolve_left hin

theorem coinbase (h : History H txs s) (hap : UtxoSet.applyCoinbase H s t height = (s', .ok ()))
    (hcb : t.isCoinbase = true) (hinj : ∀ a ∈ txs ++ [t], ∀ b ∈ txs ++ [t], a.txid H = b.txid H → a = b)
    (hdist : t.mints H = true → t ∉ txs) : History H (txs ++ [t]) s' := by
  obtain ⟨-, hins⟩ := UtxoSet.applyCoinbase_ok hap
  obtain ⟨hnd, hout⟩ := mem_insertAll hins
  have hfresh : ∀ o ∈ t.outpoints H, o ∉ createdBy H txs := by
    intro o ho
    refine fresh_outpoints (hdist ?_) hinj o ho
    have : (t.outpoints H).isEmpty = false := by
      cases hop : t.outpoints H with
      | nil => rw [hop] at ho; cases ho
      | cons x xs => rfl
    simp [Transaction.mints, hcb, this]
  refine ⟨⟨createdBy_snoc_nodup h.once.1 hnd hfresh, ?_⟩, ?_, ?_⟩
  · rw [List.filter_append]
    simpa [hcb] using h.once.2
  · intro o e ho
    rw [createdBy_append]
    by_cases hot : o ∈ t.outpoints H
    · exact List.mem_append_right _ (by simpa [createdBy] using hot)
    · rw [hout o hot] at ho
      exact List.mem_append_left _ (h.unspent ho)
  · intro a ha hacb
    rcases List.mem_append.mp ha with ha | ha
    · refine ⟨(h.spent a ha hacb).1, fun i hi => ?_⟩
      obtain ⟨h1, h2⟩ := (h.spent a ha hacb).2 i hi
      rw [createdBy_append]
      exact ⟨by rw [hout _ fun hot => hfresh _ hot h2, h1], List.mem_append_left _ h2⟩
    · have : a = t := by simpa using ha
      rw [this, hcb] at hacb
      cases hacb

theorem rest {rest : List Transaction} : ∀ {txs : List Transaction} {s s' : UtxoSet} {fees fees' : UInt64},
    History H txs s → UtxoSet.applyRest H height s fees rest = .ok (s', fees') →
    (∀ a ∈ txs ++ rest, ∀ b ∈ txs ++ rest, a.txid H = b.txid H → a = b) → History H (txs ++ rest) s' := by
  induction rest with
  | nil => intro txs s s' fees fees' h hap _; cases hap; simpa using h
  | cons t rest ih =>
    intro txs s s' fees fees' h hap hinj
    obtain ⟨hcb, s₁, fee, fees₁, hap₁, -, hrest⟩ := UtxoSet.applyRest_cons hap
    have hassoc : txs ++ t :: rest = (txs ++ [t]) ++ rest := by simp
    rw [hassoc] at hinj ⊢
    refine ih (h.transaction hap₁ hcb ?_) hrest hinj
    exact fun a ha b hb => hinj a (List.mem_append_left _ ha) b (List.mem_append_left _ hb)

theorem block {btxs : List Transaction} {fees : UInt64} (h : History H txs s)
    (hap : UtxoSet.applyBlock H s btxs height = .ok (s', fees))
    (hinj : ∀ a ∈ txs ++ btxs, ∀ b ∈ txs ++ btxs, a.txid H = b.txid H → a = b)
    (hdist : ((txs ++ btxs).filter (Transaction.mints H)).Nodup) : History H (txs ++ btxs) s' := by
  obtain ⟨cb, rest, s₁, rfl, hcb, hapcb, hrest⟩ := UtxoSet.applyBlock_ok hap
  have hassoc : txs ++ cb :: rest = (txs ++ [cb]) ++ rest := by simp
  rw [hassoc] at hinj hdist ⊢
  have hinj' : ∀ a ∈ txs ++ [cb], ∀ b ∈ txs ++ [cb], a.txid H = b.txid H → a = b :=
    fun a ha b hb => hinj a (List.mem_append_left _ ha) b (List.mem_append_left _ hb)
  refine (h.coinbase hapcb hcb hinj' ?_).rest hrest hinj
  intro hmints hm
  rw [List.filter_append, List.filter_append] at hdist
  have hdisj := (List.nodup_append'.mp (List.nodup_append'.mp hdist).1).2.2
  exact hdisj (List.mem_filter.mpr ⟨hm, hmints⟩) (List.mem_filter.mpr ⟨List.mem_singleton.mpr rfl, hmints⟩)

theorem path {ns : List BlockNode} : ∀ {txs : List Transaction} {s s' : UtxoSet}, History H txs s →
    replay H s ns = .ok s' → (∀ a ∈ txs ++ chainTxs ns, ∀ b ∈ txs ++ chainTxs ns, a.txid H = b.txid H → a = b) →
    ((txs ++ chainTxs ns).filter (Transaction.mints H)).Nodup → History H (txs ++ chainTxs ns) s' := by
  induction ns with
  | nil => intro txs s s' h hap _ _; cases hap; simpa [chainTxs] using h
  | cons n ns ih =>
    intro txs s s' h hap hinj hdist
    obtain ⟨s₁, fees, hblock, hrest⟩ := replay_cons hap
    have hassoc : txs ++ chainTxs (n :: ns) = (txs ++ n.block.transactions) ++ chainTxs ns := by
      simp [chainTxs]
    rw [hassoc] at hinj hdist ⊢
    refine ih (h.block hblock ?_ ?_) hrest hinj hdist
    · exact fun a ha b hb => hinj a (List.mem_append_left _ ha) b (List.mem_append_left _ hb)
    · rw [List.filter_append] at hdist
      exact (List.nodup_append'.mp hdist).1

end History

/-! ## The canonical chain -/

/-- A chain whose outpoints are created once has pairwise different minting coinbases. -/
theorem mints_nodup_of_once {txs : List Transaction} (h : (createdBy H txs).Nodup) :
    (txs.filter (Transaction.mints H)).Nodup := by
  rw [createdBy, List.nodup_flatMap] at h
  refine List.Pairwise.imp_of_mem ?_ (h.2.sublist List.filter_sublist)
  rintro a b ha - hdisj rfl
  have hm := (List.mem_filter.mp ha).2
  simp only [Transaction.mints, Bool.and_eq_true, Bool.not_eq_true', List.isEmpty_eq_false_iff] at hm
  obtain ⟨o, ho⟩ := List.exists_mem_of_ne_nil _ hm.2
  exact hdisj ho ho

/-- Along the canonical chain of every reachable state: nothing is replayed exactly when
    the coinbases that create an outpoint are pairwise different. -/
theorem no_replay_iff {utxo : UtxoSet} {fees : UInt64} {st : ChainState}
    (hg : UtxoSet.applyBlock H UtxoSet.new genesis.transactions 0 = .ok (utxo, fees))
    (hr : Reach H anyResult ⟨ChainTree.new H genesis, utxo⟩ st) (henc : genesis.encodable = true)
    (hsized : ∀ t ∈ chainTxs (st.tree.getPathFromGenesis st.tree.canonicalTip), t.sized)
    (hH : CollisionFree H
      ((chainTxs (st.tree.getPathFromGenesis st.tree.canonicalTip)).map Transaction.canonicalBytes)) :
    NoReplay H (chainTxs (st.tree.getPathFromGenesis st.tree.canonicalTip)) ↔
      ((chainTxs (st.tree.getPathFromGenesis st.tree.canonicalTip)).filter (Transaction.mints H)).Nodup := by
  have h := reach_stateInv hg hr
  obtain ⟨tip, htip⟩ := h.tree.tip
  constructor
  · exact fun hno => mints_nodup_of_once hno.1
  · intro hdist
    have hencodable : ∀ t ∈ chainTxs (st.tree.getPathFromGenesis st.tree.canonicalTip), t.encodable = true := by
      intro t ht
      obtain ⟨n, hn, htn⟩ := List.mem_flatMap.mp ht
      obtain ⟨k, hk⟩ := h.tree.mem_path htip hn
      have hb : n.block.encodable = true := by
        by_cases e : k = genesis.header.hash H
        · rw [e, h.tree.root] at hk
          cases hk
          exact henc
        · obtain ⟨-, p, hc⟩ := h.tree.child hk e
          exact hc.encodable
      exact List.all_eq_true.mp hb t htn
    have hinj : ∀ a ∈ chainTxs (st.tree.getPathFromGenesis st.tree.canonicalTip),
        ∀ b ∈ chainTxs (st.tree.getPathFromGenesis st.tree.canonicalTip), a.txid H = b.txid H → a = b :=
      fun a ha b hb => txid_inj hH (List.mem_map.mpr ⟨a, ha, rfl⟩) (List.mem_map.mpr ⟨b, hb, rfl⟩) (hencodable a ha)
        (hencodable b hb) (hsized a ha) (hsized b hb)
    exact (history_new.path h.replayed (by simpa using hinj) (by simpa using hdist)).once

set_option maxRecDepth 10000 in
theorem no_replay_sample :
    let st := (processBlock Blake3.digest (some 1000) (sampleStart Blake3.digest) (spendingBlock Blake3.digest)).1
    NoReplay Blake3.digest (chainTxs (st.tree.getPathFromGenesis st.tree.canonicalTip)) :=
  (no_replay_iff (sampleGenesis_applies _) (.process .start _ _ _ trivial) (by decide) (by decide +kernel)
    (by decide +kernel)).mpr (by decide +kernel)

/-- The block that spends its own coinbase, mined once more on top of itself: its outputs
    are gone, so nothing stands against the same coinbase and the same spend. -/
def spendingAgain (H : Hasher) : Block :=
  mined H ((spendingBlock H).header.hash H) UtxoSet.new 2 120 [sampleCoinbase, sampleSpend H]

set_option maxRecDepth 10000 in
theorem coinbase_mined_twice :
    let H := Blake3.digest
    let st₁ := (processBlock H (some 1000) (sampleStart H) (spendingBlock H)).1
    let st₂ := (processBlock H (some 1000) st₁ (spendingAgain H)).1
    chainTxs (st₂.tree.getPathFromGenesis st₂.tree.canonicalTip) =
        sampleGenesis.transactions ++ [sampleCoinbase, sampleSpend H, sampleCoinbase, sampleSpend H] ∧
      ¬ NoReplay H (chainTxs (st₂.tree.getPathFromGenesis st₂.tree.canonicalTip)) := by
  decide +kernel

end Scytale
