/-
  Scytale.Consensus.Rebuild — a chain can be built again from its blocks
  (crates/scytale-consensus/src/chain.rs).

  What a call checks of a block depends on the path below it, on the set that path leads to
  and on the clock, and a later clock refuses nothing an earlier one took. So the blocks of
  a path, which were checked among side branches and in another order, pass again when they
  are processed one after the other in a new tree.
  - `Grown` / `Outcome.grown`: the tip's path is valid all the way and every stored block was
    ready on its parent's path, and every call keeps it.
  - `Rebuilt.extend`: in a tree that holds the beginning of a path and nothing else, the next
    block of the path becomes the tip.
-/
import Scytale.Consensus.Convergence
import Scytale.Consensus.TipLeaf

namespace Scytale

open Lib

/-- The clock has not moved back from `a` to `b`; before the epoch it shows no time. -/
def ClockLe (a b : Option UInt64) : Prop := ∀ t, a = some t → ∃ u, b = some u ∧ t ≤ u

variable {H : Hasher} {v : Verifier} {now now' : Option UInt64} {genesis : Block} {S S' : List Block}

/-! ## A later clock -/

/-- Only the allowed drift depends on the clock. -/
theorem checkHeader_later {path : List BlockNode} {parent : BlockNode} {header : BlockHeader}
    (hclock : ClockLe now now') (h : checkHeader H path parent header now = .ok ()) :
    checkHeader H path parent header now' = .ok () := by
  unfold checkHeader at h ⊢
  split at h
  · cases h
  · rename_i T hT
    split at h
    · cases h
    · rename_i hpow
      split at h
      · cases h
      · rename_i hts
        split at h
        · cases h
        · rename_i t
          obtain ⟨u, rfl, hle⟩ := hclock t rfl
          split at h
          · cases h
          · rename_i hdrift
            have hle := UInt64.le_iff_toNat_le.mp hle
            simp only [if_neg hts]
            rw [if_neg]
            omega

theorem Admitted.later {st : ChainState} {b : Block} {parent : BlockNode} {pu : UtxoSet} (hclock : ClockLe now now')
    (adm : Admitted H now st b parent pu) : Admitted H now' st b parent pu :=
  { adm with header := checkHeader_later hclock adm.header }

/-! ## More blocks -/

theorem Ready.mono {π : List BlockNode} {p n : BlockNode} {b : Block} (hsub : S ⊆ S')
    (h : Ready H now genesis S π p b n) : Ready H now genesis S' π p b n :=
  { h with mem := hsub h.mem }

theorem Good.mono {π : List BlockNode} (hsub : S ⊆ S') (h : Good H v now genesis S π) : Good H v now genesis S' π := by
  induction h with
  | root => exact .root
  | extend _ ready hrep hconn ih => exact .extend ih (ready.mono hsub) hrep hconn

theorem AllReady.mono {t : ChainTree} (hsub : S ⊆ S') (h : AllReady H now genesis S t) : AllReady H now genesis S' t := by
  intro k n hk hr
  obtain ⟨p, hready⟩ := h k n hk hr
  exact ⟨p, hready.mono hsub⟩

/-! ## The path of the tip -/

/-- The tip's path is valid all the way, and the blocks beside it may be on a path that is. -/
structure Grown (H : Hasher) (v : Verifier) (now : Option UInt64) (genesis : Block) (S : List Block) (t : ChainTree) :
    Prop where
  good : Good H v now genesis S (t.getPathFromGenesis t.canonicalTip)
  ready : AllReady H now genesis S t

namespace Grown

variable {t : ChainTree}

theorem mono (hsub : S ⊆ S') (h : Grown H v now genesis S t) : Grown H v now genesis S' t :=
  ⟨h.good.mono hsub, h.ready.mono hsub⟩

theorem congr {t' : ChainTree} (h : Grown H v now genesis S t) (htree : TreeInv H genesis t) (hn : t'.nodes = t.nodes)
    (ht : t'.canonicalTip = t.canonicalTip) : Grown H v now genesis S t' := by
  refine ⟨?_, h.ready.congr htree hn ht⟩
  have hg : ∀ k, t'.getNode k = t.getNode k := fun k => by rw [ChainTree.getNode, hn, ChainTree.getNode]
  obtain ⟨n, htip⟩ := htree.tip
  rw [ht, ChainTree.path_mono htree.rooted (htree.congr hn ht).rooted (fun k n hk => by rw [hg, hk]) htip]
  exact h.good

theorem start (H : Hasher) (v : Verifier) (now : Option UInt64) (genesis : Block) :
    Grown H v now genesis [] (ChainTree.new H genesis) := by
  have htree := treeInv_new H genesis
  refine ⟨?_, fun k n hk hr => absurd (ChainTree.eq_genesis_of_new hk) hr⟩
  show Good H v now genesis [] ((ChainTree.new H genesis).getPathFromGenesis (genesis.header.hash H))
  rw [ChainTree.path_root htree.rooted htree.root]
  exact .root

end Grown

/-- A call at an earlier time keeps it, the block counted among those seen. -/
theorem Outcome.grown {st : ChainState} {b : Block} {r : ChainState × Except ChainError (Option ReorgResult)}
    (o : Outcome H v now st b r) (hclock : ClockLe now now') (hstate : StateInv H genesis st)
    (h : Grown H v now' genesis S st.tree) : Grown H v now' genesis (b :: S) r.1.tree := by
  have h := h.mono (List.subset_cons_self b S)
  have htree := hstate.tree
  -- a block stored beside the tip leaves the tip's path
  have hside : ∀ {parent node pu}, Admitted H now st b parent pu → newNode H parent b = some node →
      Grown H v now' genesis (b :: S) (st.tree.insertNode node) := by
    intro parent node pu adm hnode
    obtain ⟨tip, htip⟩ := htree.tip
    refine ⟨?_, h.ready.insert htree (adm.later hclock) hnode List.mem_cons_self st.tree.canonicalTip⟩
    show Good H v now' genesis (b :: S) ((st.tree.insertNode node).getPathFromGenesis st.tree.canonicalTip)
    rw [adm.kept_path hnode htree htip]
    exact h.good
  cases o with
  | refused e he => exact h
  | known m hm => exact h
  | marked hs e he why => exact h.congr htree (ChainTree.markAll_nodes hs _) (ChainTree.markAll_tip hs _)
  | side parent node tip pu adm hnode => exact hside adm hnode
  | deep parent node tip pu adm depth hnode => exact hside adm hnode
  | switched parent node tip pu adm ancestor staged utxo res hnode htip hlt conn =>
    have adm := adm.later hclock
    refine ⟨?_, h.ready.insert htree adm hnode List.mem_cons_self node.hash⟩
    -- the branch connected on the beginning of the old path
    obtain ⟨-, hne, ⟨δ, hδ⟩, -, hcut⟩ := h.ready.branch htree adm hnode List.mem_cons_self conn.found
    have hgood := h.good
    rw [hδ] at hgood
    show Good H v now' genesis (b :: S) ((st.tree.insertNode node).getPathFromGenesis node.hash)
    rw [conn.path adm hnode htree]
    exact good_of_connectNodes (hgood.take hne) hcut (hstate.parentUtxo conn.base) conn.connected

/-! ## Building a path again -/

/-- The work of a block whose hash is not zero. -/
theorem Ready.work_pos {π : List BlockNode} {p n : BlockNode} {b : Block} (h : Ready H now genesis S π p b n)
    (hzero : n.hash ≠ Hash256.zero) : p.cumulativeWork.val < n.cumulativeWork.val := by
  obtain ⟨hhash, -, -, -, hwork, hcum⟩ := newNode_eq h.node
  obtain ⟨⟨T, hT, hpow⟩, -⟩ := checkHeader_ok h.header
  have := blockWork_pos (target_pos hT hpow (hhash ▸ hzero))
  rw [← hwork] at this
  omega

/-- The tree holds the blocks of the path and no others, and nothing counts as invalid. -/
structure Rebuilt (H : Hasher) (genesis : Block) (π : List BlockNode) (st : ChainState) : Prop where
  state : StateInv H genesis st
  path : st.tree.getPathFromGenesis st.tree.canonicalTip = π
  clean : ∀ k, st.tree.isBlockInvalid k = false
  only : ∀ k n, st.tree.getNode k = some n → n ∈ π

theorem rebuilt_start {utxo : UtxoSet} {fees : UInt64} (d : UInt64)
    (hg : UtxoSet.applyBlock H UtxoSet.new genesis.transactions 0 = .ok (utxo, fees)) :
    Rebuilt H genesis [genesisNode H genesis] ⟨(ChainTree.new H genesis).withMaxReorgDepth d, utxo⟩ := by
  have hstate : StateInv H genesis ⟨(ChainTree.new H genesis).withMaxReorgDepth d, utxo⟩ :=
    (stateInv_new hg).congr rfl rfl
  refine ⟨hstate, ChainTree.path_root hstate.tree.rooted hstate.tree.root,
    fun k => (Table.not_contains_iff _ _).mpr (Table.get_empty k), fun k n hk => ?_⟩
  have hk : (ChainTree.new H genesis).getNode k = some n := hk
  have hroot := hstate.tree.root
  rw [← ChainTree.eq_genesis_of_new hk] at hroot
  cases Option.some.inj (hk.symm.trans hroot)
  exact List.mem_singleton_self _

namespace Rebuilt

variable {π : List BlockNode} {st : ChainState} {p n : BlockNode} {pu u : UtxoSet}

/-- The tip is the last block of the path, and the set the one it leads to. -/
theorem tip_eq (h : Rebuilt H genesis π st) (hlast : π.getLast? = some p) (hrep : replay H UtxoSet.new π = .ok pu) :
    st.tree.getNode st.tree.canonicalTip = some p ∧ p.hash = st.tree.canonicalTip ∧ pu = st.utxo := by
  obtain ⟨tip, htip⟩ := h.state.tree.tip
  have hlast' := h.state.tree.path_last htip
  rw [h.path, hlast] at hlast'
  obtain rfl : p = tip := Option.some.inj hlast'
  have hutxo := h.state.replayed
  rw [h.path, hrep] at hutxo
  exact ⟨htip, h.state.tree.hash_eq htip, Except.ok.inj hutxo⟩

/-- The next block of the path passes every check, at its own time or later. -/
theorem admitted (h : Rebuilt H genesis π st) (hclock : ClockLe now now') (ready : Ready H now genesis S π p n.block n)
    (hrep : replay H UtxoSet.new π = .ok pu) (hconn : connectNode H (π.map (·.block.header)) v pu n = .ok u)
    (hfresh : ∀ m ∈ π, m.hash ≠ n.hash) : Admitted H now' st n.block p st.utxo := by
  obtain ⟨htip, hhash, rfl⟩ := h.tip_eq ready.last hrep
  obtain ⟨hnode, -, hheight, -⟩ := newNode_eq ready.node
  have hprev : n.block.header.previousBlockHash = st.tree.canonicalTip := by rw [ready.prev, hhash]
  have hheaders : st.tree.headersTo st.tree.canonicalTip = π.map (·.block.header) := by
    rw [ChainTree.headersTo, h.path]
  obtain ⟨fees, hval⟩ := connectNode_authoritative hconn
  refine ⟨⟨h.clean _, h.clean _, ready.structured, ?_, by rw [hprev, htip], ?_, ?_, ?_⟩, ready.encodable, fees, ?_⟩
  · cases hg : st.tree.getNode (n.block.header.hash H) with
    | none => rfl
    | some m =>
      have hm := h.state.tree.hash_eq hg
      rw [← hnode] at hm
      exact absurd hm (hfresh m (h.only _ m hg))
  · rw [hprev, h.path]
    exact checkHeader_later hclock ready.header
  · rw [hprev]
    exact if_pos rfl
  · rw [hprev, hheaders]
    exact ready.median
  · rw [hprev, hheaders, ← hheight]
    exact hval

/-- A block stored on top of the path becomes its end. -/
theorem insert {b : Block} {parent : BlockNode} (h : Rebuilt H genesis π st) (adm : Admitted H now st b parent pu)
    (hnode : newNode H parent b = some n) (hprev : b.header.previousBlockHash = st.tree.canonicalTip)
    (hstate : StateInv H genesis ⟨{ st.tree.insertNode n with canonicalTip := n.hash }, u⟩) :
    Rebuilt H genesis (π ++ [n]) ⟨{ st.tree.insertNode n with canonicalTip := n.hash }, u⟩ := by
  refine ⟨hstate, ?_, h.clean, ?_⟩
  · show (st.tree.insertNode n).getPathFromGenesis n.hash = π ++ [n]
    rw [adm.stored_path hnode h.state.tree, hprev, h.path]
  · intro k m hk
    change (st.tree.insertNode n).getNode k = some m at hk
    rw [ChainTree.getNode_insertNode] at hk
    split at hk
    · cases hk
      simp
    · exact List.mem_append_left _ (h.only k m hk)

/-- So it becomes the tip. -/
theorem extend (h : Rebuilt H genesis π st) (hclock : ClockLe now now') {b : Block} (ready : Ready H now genesis S π p b n)
    (hrep : replay H UtxoSet.new π = .ok pu) (hconn : connectNode H (π.map (·.block.header)) v pu n = .ok u)
    (hfresh : ∀ m ∈ π, m.hash ≠ n.hash) (hzero : n.hash ≠ Hash256.zero) :
    ∃ st' r, processBlockWithVerifier H v now' st n.block = (st', .ok r) ∧ Rebuilt H genesis (π ++ [n]) st' := by
  obtain ⟨-, hparent, -, hblock, -⟩ := newNode_eq ready.node
  subst hblock
  have adm := h.admitted hclock ready hrep hconn hfresh
  obtain ⟨htip, hhash, rfl⟩ := h.tip_eq ready.last hrep
  have hprev : n.parentHash = st.tree.canonicalTip := by rw [hparent, ready.prev, hhash]
  have hheaders : st.tree.headersTo n.parentHash = π.map (·.block.header) := by
    rw [ChainTree.headersTo, hprev, h.path]
  have hproc := process_extends adm ready.node hprev htip (ready.work_pos hzero) (hheaders ▸ hconn)
  refine ⟨_, _, hproc, h.insert adm ready.node (hparent ▸ hprev) ?_⟩
  refine adm.stateInv ready.node h.state ⟨n, ChainTree.getNode_insertNode_self _ _⟩ ?_
  rw [adm.stored_path ready.node h.state.tree, ready.prev, hhash, h.path]
  exact replay_append_ok hrep (connectNode_replay hconn)

/-- A block of another tree that is processed on top of its parent's path there, without an
    error, ends up in the same place. -/
theorem retake {t : ChainTree} (ht : TreeInv H genesis t) (hc : Child H t p n) (hlast : π.getLast? = some p)
    (hzero : n.hash ≠ Hash256.zero) (hfresh : ∀ m ∈ π, m.hash ≠ n.hash) (h : Rebuilt H genesis π st) {st' : ChainState}
    {r : Option ReorgResult} (hproc : processBlockWithVerifier H v now st n.block = (st', .ok r)) :
    Rebuilt H genesis (π ++ [n]) st' := by
  have hrep : replay H UtxoSet.new π = .ok st.utxo := h.path ▸ h.state.replayed
  obtain ⟨htip, hhash, -⟩ := h.tip_eq hlast hrep
  have hprev : n.block.header.previousBlockHash = st.tree.canonicalTip := by
    rw [← hc.parentHash, ← hhash, ht.hash_eq hc.parent_stored]
  -- the node stored for it is the one of the other tree
  have hsame : ∀ {parent node pu}, Admitted H now st n.block parent pu → newNode H parent n.block = some node →
      node = n := by
    intro parent node pu adm hnode
    have hparent := adm.parent_stored
    rw [hprev, htip] at hparent
    cases hparent
    obtain ⟨h1, h2, h3, h4, h5, h6⟩ := newNode_eq hnode
    have hwork : node.blockWork = n.blockWork := h5.trans hc.work.symm
    have hcum : node.cumulativeWork = n.cumulativeWork :=
      CumulativeWork.val_inj (h6.trans (by rw [hwork, hc.cumulative]))
    cases node
    cases n
    simp only [BlockNode.mk.injEq]
    exact ⟨h1.trans hc.hash.symm, h2.trans hc.parentHash.symm, h3.trans hc.height.symm, hwork, hcum, h4⟩
  have o := process_outcome H v now st n.block
  have hstate := o.stateInv h.state
  rw [hproc] at o hstate
  cases o with
  | known m hm =>
    refine absurd ?_ (hfresh m (h.only _ m hm))
    rw [h.state.tree.hash_eq hm, hc.hash]
  | side parent node tip pu adm hnode htip' hle =>
    rw [htip] at htip'
    cases htip'
    rw [hsame adm hnode] at hle
    exact absurd (hc.heavier hzero) (Nat.not_lt.mpr hle)
  | switched parent node tip pu adm ancestor staged utxo r hnode =>
    obtain rfl := hsame adm hnode
    exact h.insert adm hnode hprev hstate

end Rebuilt

end Scytale
