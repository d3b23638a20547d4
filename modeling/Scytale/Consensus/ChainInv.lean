/-
  Scytale.Consensus.ChainInv — what every call on the chain tree does, and what holds in
  every state it can reach.

  - `process_outcome`: everything `process_block_with_verifier` can do to the state, said
    once: nothing, marking blocks invalid, storing a block beside the tip, or moving the
    tip. The results below split on these cases.
  - `TreeInv`: the tree is rooted in the genesis block and every other node passed its
    checks under its parent. Heights do not wrap: they stay below the timestamps, which
    strictly increase.
  - `Reach` / `reach_treeInv`: the invariant holds in every reachable state.
-/
import Scytale.Consensus.Chain

namespace Scytale

open Lib

/-! ## What one call can do -/

def ChainError.isDepth : ChainError → Bool
  | .reorgDepthExceeded _ _ => true
  | _ => false

/-- The answer to a block recorded as invalid. -/
def ChainError.cached (hash : Hash256) : ChainError := .invalidBranchBlock hash "Block is marked as invalid"

/-- The answer to a block whose parent is recorded as invalid. -/
def ChainError.cachedParent (hash : Hash256) : ChainError :=
  .invalidBranchBlock hash "Parent block is marked as invalid"

/-- An error of a check: neither the depth limit nor the record of invalid blocks. -/
def ChainError.isPlain : ChainError → Bool
  | .reorgDepthExceeded _ _ => false
  | .invalidBranchBlock _ _ => false
  | _ => true

/-- An error of putting a block's transactions on a state. -/
def ChainError.isBody : ChainError → Bool
  | .reorgFailed _ _ | .invalidCoinbaseReward _ _ _ | .invalidTransactionCommitment _ _ | .panicked => true
  | _ => false

theorem ChainError.isPlain_of_isBody {e : ChainError} (h : e.isBody = true) : e.isPlain = true := by
  cases e <;> first | rfl | cases h

theorem ChainError.isDepth_of_isPlain {e : ChainError} (h : e.isPlain = true) : e.isDepth = false := by
  cases e <;> first | rfl | cases h

namespace ChainTree

def markAll (t : ChainTree) (hs : List Hash256) : ChainTree := hs.foldl markBlockInvalid t

@[simp] theorem markAll_nodes (hs : List Hash256) : ∀ t : ChainTree, (t.markAll hs).nodes = t.nodes := by
  induction hs with
  | nil => intro t; rfl
  | cons h hs ih => intro t; exact ih (t.markBlockInvalid h)

@[simp] theorem markAll_tip (hs : List Hash256) : ∀ t : ChainTree, (t.markAll hs).canonicalTip = t.canonicalTip := by
  induction hs with
  | nil => intro t; rfl
  | cons h hs ih => intro t; exact ih (t.markBlockInvalid h)

theorem isBlockInvalid_mark (t : ChainTree) (h k : Hash256) :
    (t.markBlockInvalid h).isBlockInvalid k = (decide (k = h) || t.isBlockInvalid k) := by
  rw [isBlockInvalid, markBlockInvalid, Table.contains_eq, Table.get_insert, isBlockInvalid, Table.contains_eq]
  by_cases e : h = k
  · simp [e]
  · have : ¬ k = h := fun h' => e h'.symm
    simp [e, this]

theorem isBlockInvalid_markAll (k : Hash256) (hs : List Hash256) : ∀ t : ChainTree,
    (t.markAll hs).isBlockInvalid k = (decide (k ∈ hs) || t.isBlockInvalid k) := by
  induction hs with
  | nil => intro t; simp [markAll]
  | cons h hs ih =>
    intro t
    rw [markAll, List.foldl_cons]
    show ((t.markBlockInvalid h).markAll hs).isBlockInvalid k = _
    rw [ih, isBlockInvalid_mark]
    by_cases e : k = h <;> simp [e]

theorem getNode_insertNode (t : ChainTree) (n : BlockNode) (k : Hash256) :
    (t.insertNode n).getNode k = if n.hash = k then some n else t.getNode k := Table.get_insert _ _ _ _

theorem getNode_insertNode_self (t : ChainTree) (n : BlockNode) : (t.insertNode n).getNode n.hash = some n := by
  rw [getNode_insertNode, if_pos rfl]

theorem getNode_insertNode_of_some {t : ChainTree} {n m : BlockNode} {k : Hash256} (hf : t.getNode n.hash = none)
    (h : t.getNode k = some m) : (t.insertNode n).getNode k = some m := by
  rw [getNode_insertNode, if_neg, h]
  rintro rfl
  rw [h] at hf
  cases hf

end ChainTree

/-- The block passed every check made before its transactions are looked at; `pu` is its
    parent's state. -/
structure Examined (H : Hasher) (now : Option UInt64) (st : ChainState) (b : Block) (parent : BlockNode)
    (pu : UtxoSet) : Prop where
  unmarked : st.tree.isBlockInvalid (b.header.hash H) = false
  parent_unmarked : st.tree.isBlockInvalid b.header.previousBlockHash = false
  structured : b.validateStructure = .ok ()
  fresh : st.tree.getNode (b.header.hash H) = none
  parent_stored : st.tree.getNode b.header.previousBlockHash = some parent
  header : checkHeader H (st.tree.getPathFromGenesis b.header.previousBlockHash) parent b.header now = .ok ()
  state : st.tree.parentUtxo H st.utxo b.header.previousBlockHash = .ok pu
  median : checkMedianTime (st.tree.headersTo b.header.previousBlockHash) b.header = .ok ()

/-- It also passed the authoritative checks. -/
structure Admitted (H : Hasher) (now : Option UInt64) (st : ChainState) (b : Block) (parent : BlockNode)
    (pu : UtxoSet) : Prop extends Examined H now st b parent pu where
  encodable : b.encodable = true
  valid : ∃ fees, validateBlockAuthoritativeWithHeaders H b (parent.height + 1) pu
    (st.tree.headersTo b.header.previousBlockHash) = .ok fees

/-- The branch of `node` was connected on top of `ancestor`, ending in `utxo`. -/
structure Connected (H : Hasher) (v : Verifier) (st : ChainState) (node : BlockNode) (ancestor : Hash256)
    (staged utxo : UtxoSet) : Prop where
  found : st.tree.findCommonAncestor st.tree.canonicalTip node.parentHash = .ok ancestor
  base : st.tree.parentUtxo H st.utxo ancestor = .ok staged
  connected : connectNodes H st.tree v staged ((st.tree.walkUpto node.parentHash ancestor).reverse ++ [node]) = .ok utxo

/-- Why a call records blocks as invalid. -/
inductive Marks (H : Hasher) (v : Verifier) (now : Option UInt64) (st : ChainState) (b : Block) : List Hash256 → Prop where
  | parent (hun : st.tree.isBlockInvalid (b.header.hash H) = false)
      (h : st.tree.isBlockInvalid b.header.previousBlockHash = true) : Marks H v now st b [b.header.hash H]
  | block (parent : BlockNode) (pu : UtxoSet) (ex : Examined H now st b parent pu) (e : ConsensusError)
      (h : validateBlockAuthoritativeWithHeaders H b (parent.height + 1) pu
        (st.tree.headersTo b.header.previousBlockHash) = .error e) : Marks H v now st b [b.header.hash H]
  | branch (parent node : BlockNode) (pu : UtxoSet) (adm : Admitted H now st b parent pu)
      (hnode : newNode H parent b = some node) (ancestor : Hash256) (staged : UtxoSet)
      (found : st.tree.findCommonAncestor st.tree.canonicalTip node.parentHash = .ok ancestor)
      (base : st.tree.parentUtxo H st.utxo ancestor = .ok staged) (bad : Hash256) (e : ChainError)
      (h : connectNodes H st.tree v staged ((st.tree.walkUpto node.parentHash ancestor).reverse ++ [node]) =
        .error (bad, e)) : Marks H v now st b [bad, node.hash]

/-- What a call can do. -/
inductive Outcome (H : Hasher) (v : Verifier) (now : Option UInt64) (st : ChainState) (b : Block) :
    ChainState × Except ChainError (Option ReorgResult) → Prop where
  /-- Refused, nothing recorded. -/
  | refused (e : ChainError) (h : e.isDepth = false)
      (hc : e.isPlain = true ∨ (e = .cached (b.header.hash H) ∧ st.tree.isBlockInvalid (b.header.hash H) = true)) :
      Outcome H v now st b (st, .error e)
  /-- Already stored. -/
  | known (n : BlockNode) (h : st.tree.getNode (b.header.hash H) = some n) : Outcome H v now st b (st, .ok none)
  /-- Refused, with blocks recorded as invalid. -/
  | marked (hs : List Hash256) (e : ChainError) (h : e.isDepth = false) (why : Marks H v now st b hs)
      (hc : e.isPlain = true ∨ e = .cachedParent (b.header.hash H)) :
      Outcome H v now st b ({ st with tree := st.tree.markAll hs }, .error e)
  /-- Stored, with no more work than the tip. -/
  | side (parent node tip : BlockNode) (pu : UtxoSet) (adm : Admitted H now st b parent pu)
      (hnode : newNode H parent b = some node) (htip : st.tree.getNode st.tree.canonicalTip = some tip)
      (hle : node.cumulativeWork.val ≤ tip.cumulativeWork.val) :
      Outcome H v now st b ({ st with tree := st.tree.insertNode node }, .ok none)
  /-- Stored, with more work than the tip, but its branch is too deep. -/
  | deep (parent node tip : BlockNode) (pu : UtxoSet) (adm : Admitted H now st b parent pu) (depth : UInt64)
      (hnode : newNode H parent b = some node) (htip : st.tree.getNode st.tree.canonicalTip = some tip)
      (hlt : tip.cumulativeWork.val < node.cumulativeWork.val) (ancestor : Hash256)
      (found : st.tree.findCommonAncestor st.tree.canonicalTip node.parentHash = .ok ancestor)
      (hdisc : st.tree.walkUpto st.tree.canonicalTip ancestor ≠ []) :
      Outcome H v now st b
        ({ st with tree := st.tree.insertNode node }, .error (.reorgDepthExceeded depth st.tree.maxReorgDepth))
  /-- The tip moves to the block. -/
  | switched (parent node tip : BlockNode) (pu : UtxoSet) (adm : Admitted H now st b parent pu)
      (ancestor : Hash256) (staged utxo : UtxoSet) (r : ReorgResult)
      (hnode : newNode H parent b = some node) (htip : st.tree.getNode st.tree.canonicalTip = some tip)
      (hlt : tip.cumulativeWork.val < node.cumulativeWork.val) (conn : Connected H v st node ancestor staged utxo)
      (hdisc : r.disconnectedBlocks = (st.tree.walkUpto st.tree.canonicalTip ancestor).map (·.block))
      (hconn : r.connectedBlocks = ((st.tree.walkUpto node.parentHash ancestor).reverse ++ [node]).map (·.block))
      (hpool : r.transactionsForMempool = transactionsForMempool H r.disconnectedBlocks r.connectedBlocks) :
      Outcome H v now st b (⟨{ st.tree.insertNode node with canonicalTip := node.hash }, utxo⟩, .ok (some r))

theorem toChain_isBody (hash : Hash256) (e : ConsensusError) : (e.toChain hash).isBody = true := by
  cases e <;> rfl

section
variable {H : Hasher}

theorem replay_isBody {ns : List BlockNode} : ∀ {s : UtxoSet} {e : ChainError}, replay H s ns = .error e →
    e.isBody = true := by
  induction ns with
  | nil => intro s e h; cases h
  | cons n ns ih =>
    intro s e h
    unfold replay at h
    split at h
    · cases h; rfl
    · split at h
      · cases h; rfl
      · exact ih h

theorem parentUtxo_isBody {t : ChainTree} {u : UtxoSet} {p : Hash256} {e : ChainError}
    (h : t.parentUtxo H u p = .error e) : e.isBody = true := by
  unfold ChainTree.parentUtxo at h
  split at h
  · cases h
  · exact replay_isBody h

theorem expectedTarget_isPlain {path : List BlockNode} {p : BlockNode} {e : ChainError}
    (h : expectedTarget path p = .error e) : e.isPlain = true := by
  simp only [expectedTarget] at h
  repeat' split at h
  all_goals cases h
  all_goals rfl

theorem checkHeader_isPlain {path : List BlockNode} {p : BlockNode} {hd : BlockHeader} {now : Option UInt64}
    {e : ChainError} (h : checkHeader H path p hd now = .error e) : e.isPlain = true := by
  unfold checkHeader at h
  split at h
  · rename_i ht
    cases h
    unfold checkTarget at ht
    split at ht
    · rename_i he
      cases ht
      exact expectedTarget_isPlain he
    · split at ht
      · cases ht; rfl
      · cases ht
  · repeat' split at h
    all_goals cases h
    all_goals rfl

theorem connectNode_isBody {hs : List BlockHeader} {v : Verifier} {s : UtxoSet} {n : BlockNode} {e : ChainError}
    (h : connectNode H hs v s n = .error e) : e.isBody = true := by
  unfold connectNode at h
  split at h
  · cases h; exact toChain_isBody _ _
  · split at h
    · cases h; rfl
    · split at h
      · rename_i hr
        cases h
        exact replay_isBody hr
      · split at h
        · cases h; rfl
        · cases h

theorem connectNodes_isBody {t : ChainTree} {v : Verifier} {ns : List BlockNode} : ∀ {s : UtxoSet} {k : Hash256}
    {e : ChainError}, connectNodes H t v s ns = .error (k, e) → e.isBody = true := by
  induction ns with
  | nil => intro s k e h; cases h
  | cons n ns ih =>
    intro s k e h
    unfold connectNodes at h
    split at h
    · rename_i he
      cases h
      exact connectNode_isBody he
    · exact ih h

end

/-- Refused by a check. -/
theorem Outcome.plain {H : Hasher} {v : Verifier} {now : Option UInt64} {st : ChainState} {b : Block} {e : ChainError}
    (h : e.isPlain = true) : Outcome H v now st b (st, .error e) :=
  .refused e (ChainError.isDepth_of_isPlain h) (.inl h)

/-- Fork choice on an admitted block. -/
theorem forkChoice_outcome {H : Hasher} {v : Verifier} {now : Option UInt64} {st : ChainState} {b : Block}
    {parent node : BlockNode} {pu : UtxoSet} (adm : Admitted H now st b parent pu)
    (hnode : newNode H parent b = some node) : Outcome H v now st b (forkChoice H st v node) := by
  unfold forkChoice
  split
  · exact .plain rfl
  · rename_i tip htip
    split
    · rename_i hle
      exact .side parent node tip pu adm hnode htip ((CumulativeWork.le_iff _ _).mp hle)
    · rename_i hgt
      have hlt : tip.cumulativeWork.val < node.cumulativeWork.val := by
        rw [CumulativeWork.le_iff] at hgt
        omega
      simp only
      split
      · rename_i e he
        refine .plain ?_
        unfold ChainTree.findCommonAncestor at he
        split at he
        · cases he
        · cases he; rfl
      · rename_i ancestor hanc
        split
        · rename_i hdeep
          refine .deep parent node tip pu adm _ hnode htip hlt ancestor hanc fun hnil => ?_
          rw [hnil] at hdeep
          exact absurd hdeep (UInt64.not_lt.mpr UInt64.zero_le)
        · split
          · rename_i e he
            exact .plain (ChainError.isPlain_of_isBody (parentUtxo_isBody he))
          · rename_i staged hst
            split
            · rename_i bad e he
              have hplain := ChainError.isPlain_of_isBody (connectNodes_isBody he)
              exact .marked [bad, node.hash] e (ChainError.isDepth_of_isPlain hplain)
                (.branch parent node pu adm hnode ancestor staged hanc hst bad e he) (.inl hplain)
            · rename_i utxo hconn
              exact .switched parent node tip pu adm ancestor staged utxo _ hnode htip hlt ⟨hanc, hst, hconn⟩ rfl rfl
                rfl

theorem process_outcome (H : Hasher) (v : Verifier) (now : Option UInt64) (st : ChainState) (b : Block) :
    Outcome H v now st b (processBlockWithVerifier H v now st b) := by
  simp only [processBlockWithVerifier]
  split
  · rename_i hin
    exact .refused _ rfl (.inr ⟨rfl, hin⟩)
  · rename_i hun
    split
    · rename_i hp
      exact .marked [b.header.hash H] _ rfl (.parent (Bool.eq_false_of_not_eq_true hun) hp) (.inr rfl)
    · rename_i hpun
      split
      · exact .plain rfl
      · rename_i hstr
        split
        · rename_i hin
          obtain ⟨n, hn⟩ := (Table.contains_iff _ _).mp hin
          exact .known n hn
        · rename_i hfresh
          split
          · exact .plain rfl
          · rename_i parent hpar
            split
            · rename_i e he
              exact .plain (checkHeader_isPlain he)
            · rename_i hhead
              simp only [admitBlock]
              split
              · rename_i e he
                exact .plain (ChainError.isPlain_of_isBody (parentUtxo_isBody he))
              · rename_i pu hpu
                split
                · rename_i e he
                  refine .plain ?_
                  unfold checkMedianTime at he
                  split at he
                  · cases he; rfl
                  · cases he
                · rename_i hmed
                  have ex : Examined H now st b parent pu := ⟨Bool.eq_false_of_not_eq_true hun,
                    Bool.eq_false_of_not_eq_true hpun, hstr,
                    (Table.not_contains_iff _ _).mp (Bool.eq_false_of_not_eq_true hfresh), hpar, hhead, hpu, hmed⟩
                  split
                  · exact .plain rfl
                  · rename_i henc
                    split
                    · rename_i e he
                      have hplain := ChainError.isPlain_of_isBody (toChain_isBody (b.header.hash H) e)
                      exact .marked [b.header.hash H] _ (ChainError.isDepth_of_isPlain hplain) (.block parent pu ex e he)
                        (.inl hplain)
                    · rename_i fees hval
                      split
                      · exact .plain rfl
                      · rename_i node hnode
                        exact forkChoice_outcome ⟨ex, by simpa using henc, fees, hval⟩ hnode

/-- An examined block goes on to its transactions. -/
theorem process_examined {H : Hasher} {v : Verifier} {now : Option UInt64} {st : ChainState} {b : Block}
    {parent : BlockNode} {pu : UtxoSet} (ex : Examined H now st b parent pu) :
    processBlockWithVerifier H v now st b = admitBlock H st v parent b := by
  have hc : st.tree.nodes.contains (b.header.hash H) = false := (Table.not_contains_iff _ _).mpr ex.fresh
  simp only [processBlockWithVerifier, ex.unmarked, ex.parent_unmarked, ex.structured, hc, ex.parent_stored, ex.header,
    Bool.false_eq_true, if_false]

/-- An admitted block goes on to fork choice. -/
theorem process_admitted {H : Hasher} {v : Verifier} {now : Option UInt64} {st : ChainState} {b : Block}
    {parent node : BlockNode} {pu : UtxoSet} (adm : Admitted H now st b parent pu)
    (hnode : newNode H parent b = some node) : processBlockWithVerifier H v now st b = forkChoice H st v node := by
  obtain ⟨fees, hval⟩ := adm.valid
  rw [process_examined adm.toExamined]
  simp only [admitBlock, adm.state, adm.median, adm.encodable, hval, hnode, Bool.not_true, Bool.false_eq_true, if_false]

/-- A heavier admitted block on the tip that connects becomes the tip, and disconnects
    nothing. -/
theorem process_extends {H : Hasher} {v : Verifier} {now : Option UInt64} {st : ChainState} {b : Block}
    {parent node : BlockNode} {pu u : UtxoSet} (adm : Admitted H now st b parent pu)
    (hnode : newNode H parent b = some node) (htip : node.parentHash = st.tree.canonicalTip)
    (hstored : st.tree.getNode st.tree.canonicalTip = some parent)
    (hlt : parent.cumulativeWork.val < node.cumulativeWork.val)
    (hconn : connectNode H (st.tree.headersTo node.parentHash) v st.utxo node = .ok u) :
    processBlockWithVerifier H v now st b = (⟨{ st.tree.insertNode node with canonicalTip := node.hash }, u⟩,
      .ok (some ⟨st.tree.canonicalTip, node.hash, [], [node.block], []⟩)) := by
  have hle : node.cumulativeWork.le parent.cumulativeWork = false := by
    rw [← Bool.not_eq_true, CumulativeWork.le_iff]
    omega
  have hanc : st.tree.findCommonAncestor st.tree.canonicalTip st.tree.canonicalTip = .ok st.tree.canonicalTip := by
    rw [ChainTree.findCommonAncestor, Ancestry.commonAncestor, if_pos rfl]
  have hup : st.tree.walkUpto st.tree.canonicalTip st.tree.canonicalTip = [] := by
    rw [ChainTree.walkUpto, Ancestry.upto_self]
    rfl
  have hbase : st.tree.parentUtxo H st.utxo st.tree.canonicalTip = .ok st.utxo := if_pos rfl
  have hdepth : ¬ UInt64.ofNat ([] : List Block).length > st.tree.maxReorgDepth := UInt64.not_lt.mpr UInt64.zero_le
  have hconns : connectNodes H st.tree v st.utxo [node] = .ok u := by
    simp only [connectNodes, hconn]
  rw [process_admitted adm hnode]
  simp only [forkChoice, hstored, hle, hanc, hup, htip, List.map_nil, List.reverse_nil, List.nil_append, hbase, hconns,
    hdepth, Bool.false_eq_true, if_false]
  rfl

/-! ## The tree -/

/-- A stored node under its stored parent. -/
structure Child (H : Hasher) (t : ChainTree) (p n : BlockNode) : Prop where
  parent_stored : t.getNode n.parentHash = some p
  hash : n.hash = n.block.header.hash H
  parentHash : n.parentHash = n.block.header.previousBlockHash
  height : n.height = p.height + 1
  work : n.blockWork = blockWork (Target.fromCompact n.block.header.difficultyTarget)
  cumulative : n.cumulativeWork.val = p.cumulativeWork.val + n.blockWork.val
  structured : n.block.validateStructure = .ok ()
  encodable : n.block.encodable = true
  later : p.block.header.timestamp < n.block.header.timestamp
  target : ∃ T, checkTarget (t.getPathFromGenesis n.parentHash) p n.block.header = .ok T ∧ verifyPow H n.block.header T = .ok ()

structure TreeInv (H : Hasher) (genesis : Block) (t : ChainTree) : Prop where
  root : t.getNode (genesis.header.hash H) = some (genesisNode H genesis)
  tip : ∃ n, t.getNode t.canonicalTip = some n
  child : ∀ {k n}, t.getNode k = some n → k ≠ genesis.header.hash H → n.hash = k ∧ ∃ p, Child H t p n
  low : ∀ {k n}, t.getNode k = some n → n.height.toNat ≤ n.block.header.timestamp.toNat

/-- Parent links and heights of a tree, as the library's walks see them. -/
abbrev ChainTree.RootedAt (t : ChainTree) (root : Hash256) : Prop :=
  Ancestry.Rooted BlockNode.parentHash (fun n => n.height.toNat) t.getNode root

variable {H : Hasher} {genesis : Block} {t t' : ChainTree}

/-- Below its parent's timestamp a height cannot wrap. -/
theorem height_succ {p : BlockNode} {ts : UInt64} (hlow : p.height.toNat ≤ p.block.header.timestamp.toNat)
    (hlater : p.block.header.timestamp < ts) : (p.height + 1).toNat = p.height.toNat + 1 := by
  have h1 := UInt64.lt_iff_toNat_lt.mp hlater
  have h2 := ts.toNat_lt
  have hone : (1 : UInt64).toNat = 1 := rfl
  rw [UInt64.toNat_add, hone, Nat.mod_eq_of_lt (by omega)]

namespace TreeInv

theorem hash_eq (h : TreeInv H genesis t) {k : Hash256} {n : BlockNode} (hk : t.getNode k = some n) : n.hash = k := by
  by_cases e : k = genesis.header.hash H
  · rw [e, h.root] at hk
    cases hk
    exact e.symm
  · exact (h.child hk e).1

/-- A stored node is stored under its block's hash. -/
theorem block_hash (h : TreeInv H genesis t) {k : Hash256} {n : BlockNode} (hk : t.getNode k = some n) :
    n.block.header.hash H = k := by
  by_cases e : k = genesis.header.hash H
  · rw [e, h.root] at hk
    cases hk
    exact e.symm
  · obtain ⟨hh, p, hc⟩ := h.child hk e
    rw [← hc.hash, hh]

theorem rooted (h : TreeInv H genesis t) : t.RootedAt (genesis.header.hash H) where
  root_mem := ⟨_, h.root, rfl⟩
  parent_mem := by
    intro k n hk hr
    obtain ⟨-, p, hc⟩ := h.child hk hr
    refine ⟨p, hc.parent_stored, ?_⟩
    rw [hc.height, height_succ (h.low hc.parent_stored) hc.later]

end TreeInv

namespace ChainTree

/-! ### Paths -/

section
variable {root : Hash256}

theorem path_root (h : t.RootedAt root) {n : BlockNode} (hn : t.getNode root = some n) :
    t.getPathFromGenesis root = [n] := by
  rw [getPathFromGenesis, walkBack, Ancestry.chain_root h hn]
  rfl

theorem path_child (h : t.RootedAt root) {k : Hash256} {n : BlockNode} (hk : t.getNode k = some n) (hr : k ≠ root) :
    t.getPathFromGenesis k = t.getPathFromGenesis n.parentHash ++ [n] := by
  rw [getPathFromGenesis, walkBack, Ancestry.chain_step h hk hr]
  simp [getPathFromGenesis, walkBack]

theorem path_mono (h : t.RootedAt root) (h' : t'.RootedAt root)
    (hsub : ∀ k n, t.getNode k = some n → t'.getNode k = some n) {k : Hash256} {n : BlockNode}
    (hk : t.getNode k = some n) : t'.getPathFromGenesis k = t.getPathFromGenesis k := by
  rw [getPathFromGenesis, getPathFromGenesis, walkBack, walkBack, Ancestry.chain_mono h h' hsub hk]

/-- The path to a block is the path to an ancestor and the way up from there. -/
theorem path_upto (h : t.RootedAt root) {k anc : Hash256} {n : BlockNode} (hk : t.getNode k = some n)
    (hanc : anc ∈ (t.walkBack k).map (·.1)) :
    t.getPathFromGenesis k = t.getPathFromGenesis anc ++ (t.walkUpto k anc).reverse := by
  rw [getPathFromGenesis, walkBack, Ancestry.chain_upto h hk hanc]
  simp [getPathFromGenesis, walkBack, walkUpto]

theorem findCommonAncestor_spec (h : t.RootedAt root) {a b : Hash256} {na nb : BlockNode} (ha : t.getNode a = some na)
    (hb : t.getNode b = some nb) : ∃ c, t.findCommonAncestor a b = .ok c ∧ c ∈ (t.walkBack a).map (·.1) ∧
      c ∈ (t.walkBack b).map (·.1) ∧ (∃ nc, t.getNode c = some nc) := by
  obtain ⟨c, hc, hca, hcb, -⟩ := Ancestry.commonAncestor_spec h ha hb
  refine ⟨c, by rw [findCommonAncestor, hc], hca, hcb, ?_⟩
  obtain ⟨x, hx, rfl⟩ := List.mem_map.mp hca
  exact ⟨x.2, Ancestry.mem_chain h ha x hx⟩

end

end ChainTree

/-! ## Growing the tree -/

theorem Child.mono {root : Hash256} (h : t.RootedAt root) (h' : t'.RootedAt root)
    (hsub : ∀ k n, t.getNode k = some n → t'.getNode k = some n) {p n : BlockNode} (hc : Child H t p n) :
    Child H t' p n where
  parent_stored := hsub _ _ hc.parent_stored
  hash := hc.hash
  parentHash := hc.parentHash
  height := hc.height
  work := hc.work
  cumulative := hc.cumulative
  structured := hc.structured
  encodable := hc.encodable
  later := hc.later
  target := by
    obtain ⟨T, hT, hp⟩ := hc.target
    refine ⟨T, ?_, hp⟩
    -- the tree is read only along the parent's path
    rw [← hT]
    rw [ChainTree.path_mono h h' hsub hc.parent_stored]

/-- A tree that keeps its nodes and gains only children of them keeps the invariant. -/
theorem TreeInv.grow (h : TreeInv H genesis t) (hsub : ∀ k n, t.getNode k = some n → t'.getNode k = some n)
    (hnew : ∀ k n, t'.getNode k = some n → t.getNode k = none → n.hash = k ∧ ∃ p, Child H t p n)
    (htip : ∃ n, t'.getNode t'.canonicalTip = some n) : TreeInv H genesis t' := by
  have hchild : ∀ {k n}, t'.getNode k = some n → k ≠ genesis.header.hash H → n.hash = k ∧ ∃ p, Child H t p n := by
    intro k n hk hr
    cases hg : t.getNode k with
    | none => exact hnew k n hk hg
    | some m =>
      have := hsub k m hg
      rw [hk] at this
      cases this
      exact h.child hg hr
  have hheight : ∀ {p n}, Child H t p n → n.height.toNat = p.height.toNat + 1 := fun hc => by
    rw [hc.height, height_succ (h.low hc.parent_stored) hc.later]
  have hrooted : t'.RootedAt (genesis.header.hash H) := h.rooted.grow hsub fun k n hk hg => by
    obtain ⟨-, p, hc⟩ := hnew k n hk hg
    exact ⟨p, hc.parent_stored, hheight hc⟩
  refine ⟨hsub _ _ h.root, htip, ?_, ?_⟩
  · intro k n hk hr
    obtain ⟨hh, p, hc⟩ := hchild hk hr
    exact ⟨hh, p, hc.mono h.rooted hrooted hsub⟩
  · intro k n hk
    by_cases hr : k = genesis.header.hash H
    · rw [hr, hsub _ _ h.root] at hk
      cases hk
      exact Nat.zero_le _
    · obtain ⟨-, p, hc⟩ := hchild hk hr
      have h1 := hheight hc
      have h2 := h.low hc.parent_stored
      have h3 := UInt64.lt_iff_toNat_lt.mp hc.later
      omega

/-- The same nodes and tip. -/
theorem TreeInv.congr (h : TreeInv H genesis t) (hn : t'.nodes = t.nodes) (ht : t'.canonicalTip = t.canonicalTip) :
    TreeInv H genesis t' := by
  have hg : ∀ k, t'.getNode k = t.getNode k := fun k => by rw [ChainTree.getNode, hn, ChainTree.getNode]
  refine h.grow (fun k n hk => by rw [hg, hk]) (fun k n hk hnone => ?_) ?_
  · rw [hg, hnone] at hk
    cases hk
  · obtain ⟨n, hn⟩ := h.tip
    exact ⟨n, by rw [hg, ht, hn]⟩

/-- A new tree holds the genesis block only. -/
theorem ChainTree.getNode_new (H : Hasher) (genesis : Block) (k : Hash256) : (ChainTree.new H genesis).getNode k =
    if genesis.header.hash H = k then some (genesisNode H genesis) else none := by
  rw [ChainTree.getNode, ChainTree.new, Table.get_insert, Table.get_empty]

theorem ChainTree.eq_genesis_of_new {k : Hash256} {n : BlockNode} (h : (ChainTree.new H genesis).getNode k = some n) :
    k = genesis.header.hash H := by
  rw [getNode_new] at h
  split at h
  · rename_i e
    exact e.symm
  · cases h

theorem treeInv_new (H : Hasher) (genesis : Block) : TreeInv H genesis (ChainTree.new H genesis) := by
  have hg := ChainTree.getNode_new H genesis
  refine ⟨by rw [hg, if_pos rfl], ⟨genesisNode H genesis, ?_⟩, ?_, ?_⟩
  · exact (hg _).trans (if_pos rfl)
  · intro k n hk hr
    rw [hg, if_neg (fun e => hr e.symm)] at hk
    cases hk
  · intro k n hk
    rw [hg] at hk
    split at hk
    · cases hk
      exact Nat.zero_le _
    · cases hk

theorem newNode_eq {parent node : BlockNode} {b : Block} (h : newNode H parent b = some node) :
    node.hash = b.header.hash H ∧ node.parentHash = b.header.previousBlockHash ∧ node.height = parent.height + 1 ∧
      node.block = b ∧ node.blockWork = blockWork (Target.fromCompact b.header.difficultyTarget) ∧
      node.cumulativeWork.val = parent.cumulativeWork.val + node.blockWork.val := by
  simp only [newNode] at h
  split at h
  · cases h
  · rename_i cum hcum
    cases h
    exact ⟨rfl, rfl, rfl, rfl, rfl, CumulativeWork.checkedAdd_val hcum⟩

theorem checkHeader_ok {path : List BlockNode} {parent : BlockNode} {hd : BlockHeader} {now : Option UInt64}
    (h : checkHeader H path parent hd now = .ok ()) :
    (∃ T, checkTarget path parent hd = .ok T ∧ verifyPow H hd T = .ok ()) ∧
      parent.block.header.timestamp < hd.timestamp := by
  unfold checkHeader at h
  split at h
  · cases h
  · rename_i T hT
    split at h
    · cases h
    · rename_i hpow
      split at h
      · cases h
      · rename_i hts
        exact ⟨⟨T, hT, hpow⟩, UInt64.not_le.mp hts⟩

namespace Admitted

variable {now : Option UInt64} {st : ChainState} {b : Block} {parent node : BlockNode} {pu : UtxoSet}

/-- An admitted block's node is a child of its parent. -/
theorem isChild (adm : Admitted H now st b parent pu) (hnode : newNode H parent b = some node) :
    Child H st.tree parent node := by
  obtain ⟨h1, h2, h3, h4, h5, h6⟩ := newNode_eq hnode
  obtain ⟨htarget, hlater⟩ := checkHeader_ok adm.header
  subst h4
  exact ⟨by rw [h2]; exact adm.parent_stored, h1, h2, h3, h5, h6, adm.structured, adm.encodable, hlater,
    by rw [h2]; exact htarget⟩

theorem fresh_node (adm : Admitted H now st b parent pu) (hnode : newNode H parent b = some node) :
    st.tree.getNode node.hash = none := by
  rw [(newNode_eq hnode).1]
  exact adm.fresh

theorem grows (adm : Admitted H now st b parent pu) (hnode : newNode H parent b = some node) :
    ∀ k n, st.tree.getNode k = some n → (st.tree.insertNode node).getNode k = some n :=
  fun _ _ hk => ChainTree.getNode_insertNode_of_some (adm.fresh_node hnode) hk

/-- Storing it keeps the invariant, whichever of the stored blocks is the tip. -/
theorem treeInv (adm : Admitted H now st b parent pu) (hnode : newNode H parent b = some node)
    (h : TreeInv H genesis st.tree) (tip : Hash256) (htip : ∃ n, (st.tree.insertNode node).getNode tip = some n) :
    TreeInv H genesis { st.tree.insertNode node with canonicalTip := tip } := by
  refine h.grow (adm.grows hnode) (fun k n hk hnone => ?_) htip
  change (st.tree.insertNode node).getNode k = some n at hk
  rw [ChainTree.getNode_insertNode] at hk
  split at hk
  · rename_i e
    cases hk
    exact ⟨e, parent, adm.isChild hnode⟩
  · rw [hnone] at hk
    cases hk

/-- The walks from the blocks stored before stay. -/
theorem kept_walkBack (adm : Admitted H now st b parent pu) (hnode : newNode H parent b = some node)
    (h : TreeInv H genesis st.tree) {k : Hash256} {n : BlockNode} (hk : st.tree.getNode k = some n) :
    (st.tree.insertNode node).walkBack k = st.tree.walkBack k := by
  have hself := ChainTree.getNode_insertNode_self st.tree node
  have htree := adm.treeInv hnode h node.hash ⟨node, hself⟩
  exact Ancestry.chain_mono h.rooted htree.rooted (adm.grows hnode) hk

/-- The walk from it starts at it and goes on from its parent. -/
theorem stored_walkBack (adm : Admitted H now st b parent pu) (hnode : newNode H parent b = some node)
    (h : TreeInv H genesis st.tree) : (st.tree.insertNode node).walkBack node.hash =
      (node.hash, node) :: st.tree.walkBack node.parentHash := by
  have hself := ChainTree.getNode_insertNode_self st.tree node
  have htree := adm.treeInv hnode h node.hash ⟨node, hself⟩
  have hne : node.hash ≠ genesis.header.hash H := by
    intro e
    have := adm.fresh_node hnode
    rw [e, h.root] at this
    cases this
  rw [← adm.kept_walkBack hnode h (adm.isChild hnode).parent_stored]
  exact Ancestry.chain_step htree.rooted hself hne

/-- The paths to the blocks stored before stay. -/
theorem kept_path (adm : Admitted H now st b parent pu) (hnode : newNode H parent b = some node)
    (h : TreeInv H genesis st.tree) {k : Hash256} {n : BlockNode} (hk : st.tree.getNode k = some n) :
    (st.tree.insertNode node).getPathFromGenesis k = st.tree.getPathFromGenesis k := by
  rw [ChainTree.getPathFromGenesis, adm.kept_walkBack hnode h hk, ChainTree.getPathFromGenesis]

/-- The path to it is its parent's path and the block. -/
theorem stored_path (adm : Admitted H now st b parent pu) (hnode : newNode H parent b = some node)
    (h : TreeInv H genesis st.tree) : (st.tree.insertNode node).getPathFromGenesis node.hash =
      st.tree.getPathFromGenesis b.header.previousBlockHash ++ [node] := by
  rw [ChainTree.getPathFromGenesis, adm.stored_walkBack hnode h, (newNode_eq hnode).2.1]
  simp [ChainTree.getPathFromGenesis]

end Admitted

theorem Outcome.treeInv {v : Verifier} {now : Option UInt64} {st : ChainState} {b : Block}
    {r : ChainState × Except ChainError (Option ReorgResult)} (o : Outcome H v now st b r)
    (h : TreeInv H genesis st.tree) : TreeInv H genesis r.1.tree := by
  obtain ⟨n, htip⟩ := h.tip
  cases o with
  | refused e he => exact h
  | known m hm => exact h
  | marked hs e he why => exact h.congr (ChainTree.markAll_nodes hs _) (ChainTree.markAll_tip hs _)
  | side parent node tip pu adm hnode =>
    exact adm.treeInv hnode h st.tree.canonicalTip ⟨n, adm.grows hnode _ _ htip⟩
  | deep parent node tip pu adm depth hnode =>
    exact adm.treeInv hnode h st.tree.canonicalTip ⟨n, adm.grows hnode _ _ htip⟩
  | switched parent node tip pu adm ancestor staged utxo r hnode =>
    exact adm.treeInv hnode h _ ⟨node, ChainTree.getNode_insertNode_self _ _⟩

/-- What counts as invalid stays so. -/
theorem Outcome.keeps_marks {v : Verifier} {now : Option UInt64} {st : ChainState} {b : Block}
    {r : ChainState × Except ChainError (Option ReorgResult)} (o : Outcome H v now st b r) {k : Hash256}
    (h : st.tree.isBlockInvalid k = true) : r.1.tree.isBlockInvalid k = true := by
  cases o with
  | refused | known | side | deep | switched => exact h
  | marked hs e he why =>
    rw [ChainTree.isBlockInvalid_markAll, h]
    simp

/-! ## Runs -/

/-- The states of all runs from `init` whose calls return only allowed results. Between
    the calls the owner of the tree may mark blocks invalid and set the depth limit. -/
inductive Reach (H : Hasher) (allowed : Except ChainError (Option ReorgResult) → Prop) (init : ChainState) :
    ChainState → Prop where
  | start : Reach H allowed init init
  | process {st : ChainState} (h : Reach H allowed init st) (v : Verifier) (now : Option UInt64) (b : Block)
      (hr : allowed (processBlockWithVerifier H v now st b).2) :
      Reach H allowed init (processBlockWithVerifier H v now st b).1
  | mark {st : ChainState} (h : Reach H allowed init st) (k : Hash256) :
      Reach H allowed init { st with tree := st.tree.markBlockInvalid k }
  | setDepth {st : ChainState} (h : Reach H allowed init st) (d : UInt64) :
      Reach H allowed init { st with tree := st.tree.withMaxReorgDepth d }

/-- Any result. -/
def anyResult : Except ChainError (Option ReorgResult) → Prop := fun _ => True

theorem reach_treeInv {allowed : Except ChainError (Option ReorgResult) → Prop} {utxo : UtxoSet} {st : ChainState}
    (h : Reach H allowed ⟨ChainTree.new H genesis, utxo⟩ st) : TreeInv H genesis st.tree := by
  induction h with
  | start => exact treeInv_new H genesis
  | process _ v now b _ ih => exact (process_outcome H v now _ b).treeInv ih
  | mark _ k ih => exact ih.congr rfl rfl
  | setDepth _ d ih => exact ih.congr rfl rfl

end Scytale
