/-
  Scytale.Consensus.ForkChoice — heights, cumulative work and the choice of the tip.

  - `work_recurrence`: every stored block's cumulative work is its parent's plus its own,
    exactly (the checked addition never wraps), and its height is one more.
  - `tip_is_heaviest`: as long as no call is refused for its depth, the tip has the most
    work of all stored blocks. A block heavier than the tip is stored only by becoming the
    tip, so the invariant survives failed reorganisations.
  - `switch_is_heavier`: the tip moves only to strictly more work.
-/
import Scytale.Consensus.Replay

namespace Scytale

open Lib

variable {H : Hasher} {genesis : Block}

/-- The call was not refused for the depth of its branch. -/
def notTooDeep : Except ChainError (Option ReorgResult) → Prop
  | .error e => e.isDepth = false
  | .ok _ => True

instance : DecidablePred notTooDeep
  | .error e => inferInstanceAs (Decidable (e.isDepth = false))
  | .ok _ => inferInstanceAs (Decidable True)

theorem TreeInv.work_recurrence {t : ChainTree} (h : TreeInv H genesis t) {k : Hash256} {n : BlockNode}
    (hk : t.getNode k = some n) (hr : k ≠ genesis.header.hash H) :
    ∃ p, t.getNode n.parentHash = some p ∧ n.height.toNat = p.height.toNat + 1 ∧
      n.cumulativeWork.val =
        p.cumulativeWork.val + (blockWork (Target.fromCompact n.block.header.difficultyTarget)).val := by
  obtain ⟨-, p, hc⟩ := h.child hk hr
  refine ⟨p, hc.parent_stored, ?_, by rw [hc.cumulative, hc.work]⟩
  rw [hc.height, height_succ (h.low hc.parent_stored) hc.later]

/-- No stored block has more work than the tip. -/
def Heaviest (t : ChainTree) : Prop :=
  ∃ tip, t.getNode t.canonicalTip = some tip ∧
    ∀ {k n}, t.getNode k = some n → n.cumulativeWork.val ≤ tip.cumulativeWork.val

theorem heaviest_new (H : Hasher) (genesis : Block) : Heaviest (ChainTree.new H genesis) := by
  refine ⟨genesisNode H genesis, (treeInv_new H genesis).root, ?_⟩
  intro k n hk
  rw [ChainTree.getNode_new] at hk
  split at hk
  · cases hk
    exact Nat.le_refl _
  · cases hk

theorem Heaviest.congr {t t' : ChainTree} (h : Heaviest t) (hn : t'.nodes = t.nodes)
    (ht : t'.canonicalTip = t.canonicalTip) : Heaviest t' := by
  have hg : ∀ k, t'.getNode k = t.getNode k := fun k => by rw [ChainTree.getNode, hn, ChainTree.getNode]
  obtain ⟨tip, htip, hmax⟩ := h
  exact ⟨tip, by rw [hg, ht, htip], fun hk => hmax (by rw [← hg]; exact hk)⟩

theorem Outcome.heaviest {v : Verifier} {now : Option UInt64} {st : ChainState} {b : Block}
    {r : ChainState × Except ChainError (Option ReorgResult)} (o : Outcome H v now st b r) (hdeep : notTooDeep r.2)
    (h : Heaviest st.tree) : Heaviest r.1.tree := by
  obtain ⟨tip, htip, hmax⟩ := h
  cases o with
  | refused e he => exact ⟨tip, htip, hmax⟩
  | known m hm => exact ⟨tip, htip, hmax⟩
  | marked hs e he why => exact Heaviest.congr ⟨tip, htip, hmax⟩ (ChainTree.markAll_nodes hs _) (ChainTree.markAll_tip hs _)
  | side parent node tip' pu adm hnode htip' hle =>
    refine ⟨tip, adm.grows hnode _ _ htip, ?_⟩
    rw [htip] at htip'
    cases htip'
    intro k n hk
    rw [ChainTree.getNode_insertNode] at hk
    split at hk
    · cases hk; exact hle
    · exact hmax hk
  | deep parent node tip' pu adm depth => cases hdeep
  | switched parent node tip' pu adm ancestor staged utxo r hnode htip' hlt =>
    refine ⟨node, (ChainTree.getNode_insertNode _ _ _).trans (if_pos rfl), ?_⟩
    rw [htip] at htip'
    cases htip'
    intro k n hk
    change (st.tree.insertNode node).getNode k = some n at hk
    rw [ChainTree.getNode_insertNode] at hk
    split at hk
    · cases hk; exact Nat.le_refl _
    · have := hmax hk
      omega

theorem tip_is_heaviest {utxo : UtxoSet} {st : ChainState}
    (hr : Reach H notTooDeep ⟨ChainTree.new H genesis, utxo⟩ st) : Heaviest st.tree := by
  induction hr with
  | start => exact heaviest_new H genesis
  | process _ v now b hdeep ih => exact (process_outcome H v now _ b).heaviest hdeep ih
  | mark _ k ih => exact ih.congr rfl rfl
  | setDepth _ d ih => exact ih.congr rfl rfl

/-- A call keeps the tip, or moves it to a stored block of strictly greater work. -/
theorem Outcome.switch_is_heavier {v : Verifier} {now : Option UInt64} {st : ChainState} {b : Block}
    {r : ChainState × Except ChainError (Option ReorgResult)} (o : Outcome H v now st b r) :
    r.1.tree.canonicalTip = st.tree.canonicalTip ∨
      ∃ old new, st.tree.getNode st.tree.canonicalTip = some old ∧
        r.1.tree.getNode r.1.tree.canonicalTip = some new ∧ old.cumulativeWork.val < new.cumulativeWork.val := by
  cases o with
  | refused e he => exact Or.inl rfl
  | known m hm => exact Or.inl rfl
  | marked hs e he why => exact Or.inl (ChainTree.markAll_tip hs _)
  | side parent node tip pu adm hnode => exact Or.inl rfl
  | deep parent node tip pu adm depth hnode => exact Or.inl rfl
  | switched parent node tip pu adm ancestor staged utxo r hnode htip hlt =>
    exact Or.inr ⟨tip, node, htip, (ChainTree.getNode_insertNode _ _ _).trans (if_pos rfl), hlt⟩

/-- Fork choice, in every reachable state: the recurrence of work and height, the tip's
    work when no call was refused for depth, and that only more work moves the tip. -/
theorem fork_choice {utxo : UtxoSet} {st : ChainState}
    (hr : Reach H anyResult ⟨ChainTree.new H genesis, utxo⟩ st) :
    (∀ k n, st.tree.getNode k = some n → k ≠ genesis.header.hash H →
      ∃ p, st.tree.getNode n.parentHash = some p ∧ n.height.toNat = p.height.toNat + 1 ∧
        n.cumulativeWork.val =
          p.cumulativeWork.val + (blockWork (Target.fromCompact n.block.header.difficultyTarget)).val) ∧
    (Reach H notTooDeep ⟨ChainTree.new H genesis, utxo⟩ st → Heaviest st.tree) ∧
    ∀ (v : Verifier) (now : Option UInt64) (b : Block),
      let st' := (processBlockWithVerifier H v now st b).1
      st'.tree.canonicalTip = st.tree.canonicalTip ∨
        ∃ old new, st.tree.getNode st.tree.canonicalTip = some old ∧
          st'.tree.getNode st'.tree.canonicalTip = some new ∧ old.cumulativeWork.val < new.cumulativeWork.val := by
  have h := reach_treeInv hr
  exact ⟨fun k n hk hne => h.work_recurrence hk hne, tip_is_heaviest,
    fun v now b => (process_outcome H v now st b).switch_is_heavier⟩

set_option maxRecDepth 10000 in
theorem fork_choice_sample :
    let st := (processBlock Blake3.digest (some 1000) (sampleStart Blake3.digest) (sampleBlock Blake3.digest)).1
    st.tree.canonicalTip = (sampleBlock Blake3.digest).header.hash Blake3.digest ∧ Heaviest st.tree := by
  have hdeep : notTooDeep
      (processBlock Blake3.digest (some 1000) (sampleStart Blake3.digest) (sampleBlock Blake3.digest)).2 := by
    decide +kernel
  exact ⟨by decide +kernel, (fork_choice (.process .start _ _ _ trivial)).2.1 (.process .start _ _ _ hdeep)⟩

end Scytale
