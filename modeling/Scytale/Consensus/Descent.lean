/-
  Scytale.Consensus.Descent — what grows on a block recorded as invalid
  (crates/scytale-consensus/src/chain.rs).

  `process_block_with_verifier` looks up the block and its parent in the record of invalid
  blocks, and `mark_block_invalid` records one hash. Blocks stored on it before are not
  recorded, and on them the next block finds nothing.
  - `HandedDown`: what the record must have come to by the time a block is processed: if
    any block on the walk from its parent is recorded, then the parent is, or the block.
  - `ChainState.call_descent` / `overlooked_descent`: such a call puts nothing on a recorded
    block, and any other that stores its block does.
  - `invalid_descent`: nor does a run of such calls.
-/
import Scytale.Consensus.Replay

namespace Scytale

open Lib

variable {H : Hasher} {genesis : Block}

/-! ## Runs -/

inductive TreeCall where
  | process (v : Verifier) (now : Option UInt64) (b : Block)
  | mark (k : Hash256)

def ChainState.call (H : Hasher) (st : ChainState) : TreeCall → ChainState
  | .process v now b => (processBlockWithVerifier H v now st b).1
  | .mark k => { st with tree := st.tree.markBlockInvalid k }

/-- The states of the runs from `init` in which each call is allowed. -/
inductive Calls (H : Hasher) (allowed : ChainState → TreeCall → Prop) (init : ChainState) : ChainState → Prop where
  | start : Calls H allowed init init
  | call {st : ChainState} (h : Calls H allowed init st) (c : TreeCall) (hc : allowed st c) :
      Calls H allowed init (st.call H c)

/-- Any call. -/
def anyCall : ChainState → TreeCall → Prop := fun _ _ => True

namespace ChainTree

/-- `k` is on the walk from `x` back to the genesis block, below `x`. -/
def Below (t : ChainTree) (k x : Hash256) : Prop := k ≠ x ∧ k ∈ (t.walkBack x).map (·.1)

/-- `x` is part of the canonical chain. -/
def OnChain (t : ChainTree) (x : Hash256) : Prop := x ∈ (t.walkBack t.canonicalTip).map (·.1)

instance (t : ChainTree) (k x : Hash256) : Decidable (t.Below k x) := inferInstanceAs (Decidable (_ ∧ _))

instance (t : ChainTree) (x : Hash256) : Decidable (t.OnChain x) := inferInstanceAs (Decidable (_ ∈ _))

end ChainTree

/-- A recorded block on the walk from the parent of the processed block has been handed
    down to the parent, or to the block. -/
def HandedDown (H : Hasher) (st : ChainState) : TreeCall → Prop
  | .process _ _ b => ∀ k ∈ (st.tree.walkBack b.header.previousBlockHash).map (·.1), st.tree.isBlockInvalid k = true →
      st.tree.isBlockInvalid b.header.previousBlockHash = true ∨ st.tree.isBlockInvalid (b.header.hash H) = true
  | .mark _ => True

/-! ## One call -/

/-- In a call `st` to `st'`, no block on `k` is stored or put on the canonical chain. -/
def Spared (k : Hash256) (st st' : ChainState) : Prop :=
  ∀ x n, st'.tree.getNode x = some n → st'.tree.Below k x →
    (∃ m, st.tree.getNode x = some m) ∧ (st'.tree.OnChain x → st.tree.OnChain x)

/-- Walks that stay the same spare every block. -/
theorem Spared.of_same {k : Hash256} {st st' : ChainState} (hn : st'.tree.nodes = st.tree.nodes)
    (ht : st'.tree.canonicalTip = st.tree.canonicalTip) : Spared k st st' := by
  have hg : st'.tree.getNode = st.tree.getNode := funext fun j => by rw [ChainTree.getNode, hn, ChainTree.getNode]
  intro x n hx hb
  rw [hg] at hx
  refine ⟨⟨n, hx⟩, fun hon => ?_⟩
  rwa [ChainTree.OnChain, ChainTree.walkBack, hg, ht] at hon

section
variable {v : Verifier} {now : Option UInt64} {st : ChainState} {b : Block} {parent node : BlockNode} {pu : UtxoSet}
  {k : Hash256}

/-- An admitted block is on no recorded block, if these have been handed down. -/
theorem Admitted.unrecorded_walk (adm : Admitted H now st b parent pu) (h : HandedDown H st (.process v now b))
    (hk : st.tree.isBlockInvalid k = true) : k ∉ (st.tree.walkBack b.header.previousBlockHash).map (·.1) := by
  intro hm
  rcases h k hm hk with hp | hb
  · rw [adm.parent_unmarked] at hp
    cases hp
  · rw [adm.unmarked] at hb
    cases hb

/-- Storing it puts nothing on them. -/
theorem Admitted.below (adm : Admitted H now st b parent pu) (hnode : newNode H parent b = some node)
    (hi : TreeInv H genesis st.tree) (hno : k ∉ (st.tree.walkBack b.header.previousBlockHash).map (·.1))
    {x : Hash256} {n : BlockNode} (hx : (st.tree.insertNode node).getNode x = some n)
    (hb : (st.tree.insertNode node).Below k x) : st.tree.getNode x = some n ∧ st.tree.Below k x := by
  rw [ChainTree.getNode_insertNode] at hx
  split at hx
  · rename_i e
    cases hx
    obtain ⟨hne, hm⟩ := hb
    rw [← e, adm.stored_walkBack hnode hi, List.map_cons, List.mem_cons, (newNode_eq hnode).2.1] at hm
    exact absurd (hm.resolve_left fun he => hne (he.trans e)) hno
  · refine ⟨hx, hb.1, ?_⟩
    rw [← adm.kept_walkBack hnode hi hx]
    exact hb.2

theorem process_descent (hi : TreeInv H genesis st.tree) (h : HandedDown H st (.process v now b))
    (hk : st.tree.isBlockInvalid k = true) : Spared k st (processBlockWithVerifier H v now st b).1 := by
  have o := process_outcome H v now st b
  generalize processBlockWithVerifier H v now st b = r at o
  cases o with
  | refused | known => exact .of_same rfl rfl
  | marked hs => exact .of_same (ChainTree.markAll_nodes hs _) (ChainTree.markAll_tip hs _)
  | side parent node tip pu adm hnode htip =>
    intro x n hx hb
    obtain ⟨hx, -⟩ := adm.below hnode hi (adm.unrecorded_walk h hk) hx hb
    refine ⟨⟨n, hx⟩, fun hon => ?_⟩
    rwa [ChainTree.OnChain, ← adm.kept_walkBack hnode hi htip]
  | deep parent node tip pu adm depth hnode htip =>
    intro x n hx hb
    obtain ⟨hx, -⟩ := adm.below hnode hi (adm.unrecorded_walk h hk) hx hb
    refine ⟨⟨n, hx⟩, fun hon => ?_⟩
    rwa [ChainTree.OnChain, ← adm.kept_walkBack hnode hi htip]
  | switched parent node tip pu adm ancestor staged utxo r hnode =>
    intro x n hx hb
    have hno := adm.unrecorded_walk h hk
    obtain ⟨hx, hb⟩ := adm.below hnode hi hno hx hb
    refine ⟨⟨n, hx⟩, fun hon => ?_⟩
    -- the new canonical chain is the walk from the parent and the block, which is not `x`
    have hon : x ∈ ((st.tree.insertNode node).walkBack node.hash).map (·.1) := hon
    rw [adm.stored_walkBack hnode hi, List.map_cons, List.mem_cons, (newNode_eq hnode).2.1] at hon
    have hne : x ≠ node.hash := by
      rintro rfl
      rw [adm.fresh_node hnode] at hx
      cases hx
    obtain ⟨y, hy, rfl⟩ := List.mem_map.mp (hon.resolve_left hne)
    obtain ⟨pre, hsplit⟩ := Ancestry.chain_split hi.rooted adm.parent_stored y hy
    refine absurd ?_ hno
    rw [ChainTree.walkBack, hsplit, List.map_append]
    exact List.mem_append_right _ hb.2

/-- Stored without that, the block is on a recorded one. -/
theorem overlooked_descent (hi : TreeInv H genesis st.tree) (h : ¬HandedDown H st (.process v now b))
    (hnew : st.tree.getNode (b.header.hash H) = none) {n : BlockNode}
    (hstored : (processBlockWithVerifier H v now st b).1.tree.getNode (b.header.hash H) = some n) :
    ∃ k, st.tree.isBlockInvalid k = true ∧ ¬Spared k st (processBlockWithVerifier H v now st b).1 := by
  simp only [HandedDown, not_forall, not_or] at h
  obtain ⟨k, hm, hk, -, hun⟩ := h
  refine ⟨k, hk, fun hspared => ?_⟩
  have hbelow : (processBlockWithVerifier H v now st b).1.tree.Below k (b.header.hash H) := by
    refine ⟨fun e => hun (e ▸ hk), ?_⟩
    have hwalk : ∀ {parent node : BlockNode} {pu : UtxoSet}, Admitted H now st b parent pu →
        newNode H parent b = some node → k ∈ ((st.tree.insertNode node).walkBack (b.header.hash H)).map (·.1) := by
      intro parent node pu adm hnode
      rw [← (newNode_eq hnode).1, adm.stored_walkBack hnode hi, (newNode_eq hnode).2.1]
      exact List.mem_cons_of_mem _ hm
    have o := process_outcome H v now st b
    generalize processBlockWithVerifier H v now st b = r at o hstored
    cases o with
    | refused | known =>
      rw [hnew] at hstored
      cases hstored
    | marked hs =>
      rw [ChainTree.getNode, ChainTree.markAll_nodes, ← ChainTree.getNode, hnew] at hstored
      cases hstored
    | side _ _ _ _ adm hnode => exact hwalk adm hnode
    | deep _ _ _ _ adm _ hnode => exact hwalk adm hnode
    | switched _ _ _ _ adm _ _ _ _ hnode => exact hwalk adm hnode
  obtain ⟨⟨m, hm⟩, -⟩ := hspared _ n hstored hbelow
  rw [hnew] at hm
  cases hm

end

/-- One call. -/
theorem ChainState.call_descent {st : ChainState} (hi : TreeInv H genesis st.tree) {c : TreeCall}
    (h : HandedDown H st c) {k : Hash256} (hk : st.tree.isBlockInvalid k = true) : Spared k st (st.call H c) := by
  cases c with
  | process v now b => exact process_descent hi h hk
  | mark j => exact .of_same rfl rfl

/-! ## Runs of calls -/

theorem ChainState.call_treeInv {st : ChainState} (hi : TreeInv H genesis st.tree) (c : TreeCall) :
    TreeInv H genesis (st.call H c).tree := by
  cases c with
  | process v now b => exact (process_outcome H v now st b).treeInv hi
  | mark k => exact hi.congr rfl rfl

theorem ChainState.call_keeps_marks {st : ChainState} {k : Hash256} (hk : st.tree.isBlockInvalid k = true) (c : TreeCall) :
    (st.call H c).tree.isBlockInvalid k = true := by
  cases c with
  | process v now b => exact (process_outcome H v now st b).keeps_marks hk
  | mark j =>
    show (st.tree.markBlockInvalid j).isBlockInvalid k = true
    rw [ChainTree.isBlockInvalid_mark, hk]
    simp

/-- The blocks stored before a call are stored after it, under the same walks. -/
theorem ChainState.call_kept {st : ChainState} (hi : TreeInv H genesis st.tree) (c : TreeCall) {x : Hash256}
    {n : BlockNode} (hx : st.tree.getNode x = some n) :
    (st.call H c).tree.getNode x = some n ∧ (st.call H c).tree.walkBack x = st.tree.walkBack x := by
  have hgrows : ∀ j m, st.tree.getNode j = some m → (st.call H c).tree.getNode j = some m := by
    intro j m hj
    cases c with
    | mark => exact hj
    | process v now b =>
      have o := process_outcome H v now st b
      rw [ChainState.call]
      generalize processBlockWithVerifier H v now st b = r at o
      cases o with
      | refused | known => exact hj
      | marked hs =>
        rw [ChainTree.getNode, ChainTree.markAll_nodes]
        exact hj
      | side _ _ _ _ adm hnode => exact adm.grows hnode _ _ hj
      | deep _ _ _ _ adm _ hnode => exact adm.grows hnode _ _ hj
      | switched _ _ _ _ adm _ _ _ _ hnode => exact adm.grows hnode _ _ hj
  exact ⟨hgrows x n hx, Ancestry.chain_mono hi.rooted (call_treeInv hi c).rooted hgrows hx⟩

theorem calls_treeInv {allowed : ChainState → TreeCall → Prop} {st st' : ChainState} (h : Calls H allowed st st')
    (hi : TreeInv H genesis st.tree) : TreeInv H genesis st'.tree := by
  induction h with
  | start => exact hi
  | call _ c _ ih => exact ChainState.call_treeInv ih c

/-- After any run, if in the rest of it recorded blocks are handed down by the time a block
    on them is processed: no block that has a recorded one below it is stored, or becomes
    part of the canonical chain, from then on. -/
theorem invalid_descent {utxo : UtxoSet} {depth : UInt64} {st st' : ChainState}
    (hrun : Calls H anyCall ⟨(ChainTree.new H genesis).withMaxReorgDepth depth, utxo⟩ st)
    (hrest : Calls H (HandedDown H) st st') {k : Hash256} (hk : st.tree.isBlockInvalid k = true) : Spared k st st' := by
  have hi : TreeInv H genesis st.tree := calls_treeInv hrun ((treeInv_new H genesis).congr rfl rfl)
  -- the record keeps `k`, and the stored blocks keep their walks
  suffices hall : st'.tree.isBlockInvalid k = true ∧ TreeInv H genesis st'.tree ∧ Spared k st st' from hall.2.2
  clear hrun
  induction hrest with
  | start => exact ⟨hk, hi, .of_same rfl rfl⟩
  | @call mid _ c hc ih =>
    obtain ⟨hmarked, himid, hspared⟩ := ih
    refine ⟨ChainState.call_keeps_marks hmarked c, ChainState.call_treeInv himid c, fun x n hx hb => ?_⟩
    obtain ⟨⟨m, hm⟩, hon⟩ := ChainState.call_descent himid hc hmarked x n hx hb
    obtain ⟨-, hwalk⟩ := ChainState.call_kept himid c hm
    have hbelow : mid.tree.Below k x := ⟨hb.1, by rw [← hwalk]; exact hb.2⟩
    obtain ⟨hstored, honst⟩ := hspared x m hm hbelow
    exact ⟨hstored, fun h => honst (hon h)⟩

/-! ## Three blocks, one on the other -/

/-- The coinbase-only block on `previous` that left `utxo`. -/
def plainBlock (H : Hasher) (previous : Hash256) (utxo : UtxoSet) (height : UInt64) : Block :=
  mined H previous utxo height (60 * height) [Transaction.newCoinbase height [⟨2500000000, [0x51]⟩]]

def taking (H : Hasher) (b : Block) : TreeCall := .process (authoritativeTransactionVerifier H) (some 1000) b

/-- The tree that took the first block. -/
def tookOne (H : Hasher) : ChainState := (sampleStart H).call H (taking H (sampleBlock H))

def blockTwo (H : Hasher) : Block := plainBlock H ((sampleBlock H).header.hash H) (tookOne H).utxo 2

def tookTwo (H : Hasher) : ChainState := (tookOne H).call H (taking H (blockTwo H))

def blockThree (H : Hasher) : Block := plainBlock H ((blockTwo H).header.hash H) (tookTwo H).utxo 3

set_option maxRecDepth 10000 in
/-- The first block is recorded before there is anything on it: the second is refused. -/
theorem invalid_descent_refused : let H := Blake3.digest
    let k := (sampleBlock H).header.hash H
    let st := (tookOne H).call H (.mark k)
    Spared k st (st.call H (taking H (blockTwo H))) := by
  intro H k st
  have hmarked : st.tree.isBlockInvalid k = true := by decide +kernel
  have hrun : Calls H anyCall ⟨(ChainTree.new H sampleGenesis).withMaxReorgDepth defaultMaxReorgDepth, UtxoSet.new⟩ st :=
    .call (.call .start (taking H (sampleBlock H)) trivial) (.mark k) trivial
  refine invalid_descent hrun (.call .start _ ?_) hmarked
  exact fun _ _ _ => .inl hmarked

set_option maxRecDepth 10000 in
/-- The first block is recorded after the second was stored: the third becomes the tip. -/
theorem recorded_block_built_on : let H := Blake3.digest
    let k := (sampleBlock H).header.hash H
    let st := (tookTwo H).call H (.mark k)
    let st' := st.call H (taking H (blockThree H))
    Calls H anyCall (sampleStart H) st ∧ Calls H anyCall st st' ∧ st.tree.isBlockInvalid k = true ∧ ¬Spared k st st' := by
  intro H k st st'
  have hrun : st.tree.isBlockInvalid k = true ∧ st.tree.nodes.contains ((blockThree H).header.hash H) = false ∧
      st'.tree.nodes.contains ((blockThree H).header.hash H) = true ∧
      st'.tree.Below k ((blockThree H).header.hash H) := by decide +kernel
  obtain ⟨hmarked, hnew, hstored, hbelow⟩ := hrun
  refine ⟨.call (.call (.call .start (taking H (sampleBlock H)) trivial) (taking H (blockTwo H)) trivial) (.mark k) trivial,
    .call .start _ trivial, hmarked, fun h => ?_⟩
  obtain ⟨n, hn⟩ := (Table.contains_iff _ _).mp hstored
  obtain ⟨⟨m, hm⟩, -⟩ := h _ n hn hbelow
  rw [ChainTree.getNode, (Table.not_contains_iff _ _).mp hnew] at hm
  cases hm

end Scytale
