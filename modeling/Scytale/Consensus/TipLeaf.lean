/-
  Scytale.Consensus.TipLeaf — nothing that counts is stored above the tip
  (crates/scytale-consensus/src/chain.rs).

  A block on the tip becomes the tip unless its work is zero, which only the zero target
  has; and on a zero target every later one is zero. So when a change of the tip
  disconnects nothing, the new tip is a child of the old one.
  - `TipLeaf` / `Outcome.tipLeaf`: the invariant, and that every call keeps it.
  - `extension_of_nothing_disconnected`: what it is for.
-/
import Scytale.Consensus.Retarget

namespace Scytale

open Lib

variable {H : Hasher} {genesis : Block} {t : ChainTree}

/-- The block's target is zero. -/
def BlockNode.Workless (n : BlockNode) : Prop := (Target.fromCompact n.block.header.difficultyTarget).val = 0

/-- Every stored block that descends from the tip is workless, and no heavier. -/
def TipLeaf (t : ChainTree) : Prop :=
  ∀ (k : Hash256) (n tip : BlockNode), t.getNode k = some n → t.getNode t.canonicalTip = some tip →
    t.canonicalTip ∈ (t.walkBack k).map (·.1) → k ≠ t.canonicalTip →
    n.Workless ∧ n.cumulativeWork.val = tip.cumulativeWork.val

/-! ## Workless blocks -/

/-- The child names the target its parent's path asks for. -/
theorem Child.names_target {p n : BlockNode} (hc : Child H t p n) :
    expectedTarget (t.getPathFromGenesis n.parentHash) p = .ok (Target.fromCompact n.block.header.difficultyTarget) := by
  obtain ⟨T, hT, -⟩ := hc.target
  unfold checkTarget at hT
  split at hT
  · cases hT
  · rename_i expected he
    split at hT
    · cases hT
    · rename_i hv
      cases hT
      rw [he, validateBlockTarget_ok.mp hv]

theorem Child.workless {p n : BlockNode} (h : TreeInv H genesis t) (hc : Child H t p n) (hp : p.Workless) : n.Workless := by
  have hnames := hc.names_target
  by_cases hb : AtBoundary p
  · obtain ⟨first, T, -, hT, hval⟩ := h.boundary_target hc.parent_stored hb
    rw [hT] at hnames
    rw [BlockNode.Workless, ← Except.ok.inj hnames, hval, retargetQuotient, hp, Nat.zero_mul, Nat.zero_div]
    exact Nat.zero_min _
  · rw [inner_target _ hb] at hnames
    rw [BlockNode.Workless, ← Except.ok.inj hnames]
    exact hp

/-- A child no heavier than its parent is workless. -/
theorem Child.workless_of_le {p n : BlockNode} (hc : Child H t p n)
    (hle : n.cumulativeWork.val ≤ p.cumulativeWork.val) : n.Workless := by
  by_contra hpos
  have := blockWork_pos (Nat.pos_of_ne_zero hpos)
  have hcum := hc.cumulative
  rw [hc.work] at hcum
  omega

/-- No hash but zero meets the zero target. -/
theorem target_pos {path : List BlockNode} {parent : BlockNode} {header : BlockHeader} {T : Target}
    (hT : checkTarget path parent header = .ok T) (hpow : verifyPow H header T = .ok ())
    (hzero : header.hash H ≠ Hash256.zero) : 0 < (Target.fromCompact header.difficultyTarget).val := by
  have hval : T = Target.fromCompact header.difficultyTarget := by
    unfold checkTarget at hT
    split at hT
    · cases hT
    · split at hT
      · cases hT
      · rename_i hv
        cases hT
        exact (validateBlockTarget_ok.mp hv).symm
  have hmet : byteVal (header.hash H).bytes ≤ T.val := by
    rw [← Target.isMetBy_iff]
    unfold verifyPow at hpow
    split at hpow
    · cases hpow
    · rename_i hm
      simpa using hm
  rw [← hval]
  refine Nat.lt_of_lt_of_le (Nat.pos_of_ne_zero fun h0 => hzero ?_) hmet
  exact Hash256.eq_zero_of_byteVal h0

/-- So a child whose hash is not zero is heavier than its parent. -/
theorem Child.heavier {p n : BlockNode} (hc : Child H t p n) (hzero : n.hash ≠ Hash256.zero) :
    p.cumulativeWork.val < n.cumulativeWork.val := by
  obtain ⟨T, hT, hpow⟩ := hc.target
  by_contra hle
  have hworkless : (Target.fromCompact n.block.header.difficultyTarget).val = 0 := hc.workless_of_le (Nat.le_of_not_lt hle)
  have hpos := target_pos hT hpow (hc.hash ▸ hzero)
  omega

theorem Child.weight_of_workless {p n : BlockNode} (hc : Child H t p n) (hn : n.Workless) :
    n.cumulativeWork.val = p.cumulativeWork.val := by
  rw [hc.cumulative, hc.work, blockWork_zero hn, Nat.add_zero]

/-! ## The invariant -/

theorem tipLeaf_new (H : Hasher) (genesis : Block) : TipLeaf (ChainTree.new H genesis) := by
  intro k n tip hk htip hm hne
  exact absurd (ChainTree.eq_genesis_of_new hk) hne

theorem TipLeaf.congr {t' : ChainTree} (h : TipLeaf t) (hn : t'.nodes = t.nodes)
    (ht : t'.canonicalTip = t.canonicalTip) : TipLeaf t' := by
  have hg : t'.getNode = t.getNode := funext fun k => by rw [ChainTree.getNode, hn, ChainTree.getNode]
  intro k n tip hk htip hm hne
  rw [ChainTree.walkBack, hg, ht] at hm
  rw [hg, ht] at htip
  rw [hg] at hk
  rw [ht] at hne
  exact h k n tip hk htip hm hne

/-- A block whose chain has the tip on it either is the tip or is workless. -/
theorem TipLeaf.weight (h : TipLeaf t) {k : Hash256} {n tip : BlockNode} (hk : t.getNode k = some n)
    (htip : t.getNode t.canonicalTip = some tip) (hm : t.canonicalTip ∈ (t.walkBack k).map (·.1)) :
    n.cumulativeWork.val = tip.cumulativeWork.val := by
  by_cases e : k = t.canonicalTip
  · rw [e, htip] at hk
    cases hk
    rfl
  · exact (h k n tip hk htip hm e).2

section
variable {now : Option UInt64} {st : ChainState} {b : Block} {parent node : BlockNode} {pu : UtxoSet}

/-- A block stored beside the tip keeps the invariant, if it is workless whenever it
    descends from the tip. -/
theorem Admitted.tipLeaf (adm : Admitted H now st b parent pu) (hnode : newNode H parent b = some node)
    (h : TreeInv H genesis st.tree) (hl : TipLeaf st.tree)
    (hside : st.tree.canonicalTip ∈ (st.tree.walkBack node.parentHash).map (·.1) → node.Workless) :
    TipLeaf (st.tree.insertNode node) := by
  obtain ⟨n₀, hn₀⟩ := h.tip
  have hsub := adm.grows hnode
  have htree := adm.treeInv hnode h st.tree.canonicalTip ⟨n₀, hsub _ _ hn₀⟩
  have hc := adm.isChild hnode
  intro k n tip hk htip hm hne
  have htip' : tip = n₀ := Option.some.inj (htip.symm.trans (hsub _ _ hn₀))
  subst htip'
  rw [ChainTree.getNode_insertNode] at hk
  split at hk
  · rename_i e
    cases hk
    rw [← e, adm.stored_walkBack hnode h, List.map_cons, List.mem_cons] at hm
    have hm := hm.resolve_left fun e' => hne (e ▸ e'.symm)
    have hw := hside hm
    refine ⟨hw, ?_⟩
    rw [hc.weight_of_workless hw]
    exact hl.weight hc.parent_stored hn₀ hm
  · have hwalk : (st.tree.insertNode node).walkBack k = st.tree.walkBack k :=
      Ancestry.chain_mono h.rooted htree.rooted hsub hk
    rw [hwalk] at hm
    exact hl k n tip hk hn₀ hm hne

end

theorem Outcome.tipLeaf {v : Verifier} {now : Option UInt64} {st : ChainState} {b : Block}
    {r : ChainState × Except ChainError (Option ReorgResult)} (o : Outcome H v now st b r)
    (h : TreeInv H genesis st.tree) (hl : TipLeaf st.tree) : TipLeaf r.1.tree := by
  cases o with
  | refused e he => exact hl
  | known m hm => exact hl
  | marked hs e he why => exact hl.congr (ChainTree.markAll_nodes hs _) (ChainTree.markAll_tip hs _)
  | side parent node tip pu adm hnode htip hle =>
    have hc := adm.isChild hnode
    refine adm.tipLeaf hnode h hl fun hm => ?_
    by_cases e : node.parentHash = st.tree.canonicalTip
    · have hp := hc.parent_stored
      rw [e, htip] at hp
      cases hp
      exact hc.workless_of_le hle
    · exact hc.workless h (hl _ parent tip hc.parent_stored htip hm e).1
  | deep parent node tip pu adm depth hnode htip hlt ancestor found hdisc =>
    -- the branch leaves the tip's chain below the tip
    refine adm.tipLeaf hnode h hl fun hm => absurd ?_ hdisc
    have hanc := Ancestry.commonAncestor_of_mem h.rooted htip (adm.isChild hnode).parent_stored hm
    rw [ChainTree.findCommonAncestor, hanc] at found
    cases found
    rw [ChainTree.walkUpto, Ancestry.upto_self]
    rfl
  | switched parent node tip pu adm ancestor staged utxo r hnode =>
    -- nothing stored descends from a new block
    intro k n tip' hk _ hm hne
    have hsub := adm.grows hnode
    have htree := adm.treeInv hnode h node.hash ⟨node, ChainTree.getNode_insertNode_self _ _⟩
    change (st.tree.insertNode node).getNode k = some n at hk
    rw [ChainTree.getNode_insertNode, if_neg fun e => hne e.symm] at hk
    have hwalk : (st.tree.insertNode node).walkBack k = st.tree.walkBack k :=
      Ancestry.chain_mono h.rooted htree.rooted hsub hk
    change node.hash ∈ ((st.tree.insertNode node).walkBack k).map (·.1) at hm
    rw [hwalk] at hm
    obtain ⟨x, hx, hxn⟩ := List.mem_map.mp hm
    have hg := Ancestry.mem_chain h.rooted hk x hx
    have hfresh := adm.fresh_node hnode
    rw [← hxn] at hfresh
    exact absurd (hg.symm.trans hfresh) (by simp)

/-- A heavier block whose branch leaves the tip's chain at the tip is a child of the tip. -/
theorem TipLeaf.extension_of_nothing_disconnected {now : Option UInt64} {st : ChainState} {b : Block}
    {parent node tip : BlockNode} {pu : UtxoSet} (h : TreeInv H genesis st.tree) (hl : TipLeaf st.tree)
    (adm : Admitted H now st b parent pu) (hnode : newNode H parent b = some node)
    (htip : st.tree.getNode st.tree.canonicalTip = some tip) (hlt : tip.cumulativeWork.val < node.cumulativeWork.val)
    {ancestor : Hash256} (found : st.tree.findCommonAncestor st.tree.canonicalTip node.parentHash = .ok ancestor)
    (hdisc : st.tree.walkUpto st.tree.canonicalTip ancestor = []) : node.parentHash = st.tree.canonicalTip := by
  have hc := adm.isChild hnode
  obtain ⟨c, hfound, -, hcb, -⟩ := ChainTree.findCommonAncestor_spec h.rooted htip hc.parent_stored
  rw [found] at hfound
  cases hfound
  obtain rfl : st.tree.canonicalTip = ancestor := Ancestry.upto_eq_nil htip (List.map_eq_nil_iff.mp hdisc)
  by_contra e
  have hwork := hl _ parent tip hc.parent_stored htip hcb e
  have hweight := hc.weight_of_workless (hc.workless h hwork.1)
  omega

end Scytale
