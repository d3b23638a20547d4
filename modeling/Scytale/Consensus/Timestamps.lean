/-
  Scytale.Consensus.Timestamps — time along the paths of the chain tree
  (crates/scytale-consensus/src/chain.rs, difficulty.rs).

  A stored block is later than its parent, so along every path time strictly increases.
  Two errors can therefore not arise: a candidate later than its parent is later than the
  median of its path, and an epoch always ends after it started.
  - `TreeInv.increasing`: the invariant along one path.
  - `process_time_error`: where an error about time can come from.
  - `time_errors_unreachable`: both, for every reachable tree and every candidate.
-/
import Scytale.Consensus.Retarget

namespace Scytale

open Lib

variable {H : Hasher} {genesis : Block} {t : ChainTree}

/-- The candidate is before the median of its path, or an epoch ends no later than it
    started. -/
def ChainError.isTime : ChainError → Bool
  | .timestampBeforeMedianTimePast => true
  | .difficulty (.invalidObservedTime _ _) => true
  | _ => false

theorem ChainError.not_isTime_of_isBody {e : ChainError} (h : e.isBody = true) : e.isTime = false := by
  cases e <;> first | rfl | cases h

namespace TreeInv

theorem increasing (h : TreeInv H genesis t) {k : Hash256} {n : BlockNode} (hk : t.getNode k = some n) :
    (t.getPathFromGenesis k).Pairwise fun a b => a.block.header.timestamp < b.block.header.timestamp := by
  refine h.rooted.induction (P := fun k => (t.getPathFromGenesis k).Pairwise fun a b =>
    a.block.header.timestamp < b.block.header.timestamp) ?_ ?_ hk
  · rw [ChainTree.path_root h.rooted h.root]
    exact List.pairwise_singleton _ _
  · intro k n hk hr ih
    obtain ⟨before, hpath, hearlier⟩ := h.path_earlier hk
    have hchild := ChainTree.path_child h.rooted hk hr
    rw [hchild] at hpath
    rw [hchild, List.pairwise_append]
    refine ⟨ih, List.pairwise_singleton _ _, fun a ha b hb => ?_⟩
    rw [List.mem_singleton.mp hb]
    exact hearlier a ((List.append_inj_left' hpath rfl) ▸ ha)

/-- Every stored block can be asked for the target of its children. -/
theorem expectedTarget_ok (h : TreeInv H genesis t) {k : Hash256} {n : BlockNode} (hk : t.getNode k = some n) :
    ∃ T, expectedTarget (t.getPathFromGenesis k) n = .ok T := by
  by_cases hb : AtBoundary n
  · obtain ⟨_, T, -, hT, -⟩ := h.boundary_target hk hb
    exact ⟨T, hT⟩
  · exact ⟨_, inner_target _ hb⟩

end TreeInv

theorem checkTarget_time_error {path : List BlockNode} {p : BlockNode} {hd : BlockHeader} {e : ChainError}
    (h : checkTarget path p hd = .error e) (ht : e.isTime = true) : expectedTarget path p = .error e := by
  unfold checkTarget at h
  split at h
  · rename_i he
    cases h
    exact he
  · split at h
    · rename_i hv
      cases h
      unfold validateBlockTarget at hv
      split at hv
      · cases hv
        cases ht
      · cases hv
    · cases h

theorem checkHeader_time_error {path : List BlockNode} {p : BlockNode} {hd : BlockHeader} {now : Option UInt64}
    {e : ChainError} (h : checkHeader H path p hd now = .error e) (ht : e.isTime = true) :
    expectedTarget path p = .error e := by
  unfold checkHeader at h
  split at h
  · rename_i hc
    cases h
    exact checkTarget_time_error hc ht
  · repeat' split at h
    all_goals cases h
    all_goals cases ht

theorem forkChoice_time_error {v : Verifier} {st st' : ChainState} {node : BlockNode} {e : ChainError}
    (h : forkChoice H st v node = (st', .error e)) : e.isTime = false := by
  unfold forkChoice at h
  split at h
  · cases h
    rfl
  · split at h
    · cases h
    · simp only at h
      split at h
      · rename_i he
        cases h
        unfold ChainTree.findCommonAncestor at he
        split at he
        · cases he
        · cases he
          rfl
      · split at h
        · cases h
          rfl
        · split at h
          · rename_i he
            cases h
            exact ChainError.not_isTime_of_isBody (parentUtxo_isBody he)
          · split at h
            · rename_i he
              cases h
              exact ChainError.not_isTime_of_isBody (connectNodes_isBody he)
            · cases h

theorem admitBlock_time_error {v : Verifier} {st st' : ChainState} {parent : BlockNode} {b : Block} {e : ChainError}
    (h : admitBlock H st v parent b = (st', .error e)) (ht : e.isTime = true) :
    checkMedianTime (st.tree.headersTo b.header.previousBlockHash) b.header = .error e := by
  have hbody : ∀ {e : ChainError}, e.isBody = true → ¬ e.isTime = true := fun hb h => by
    rw [ChainError.not_isTime_of_isBody hb] at h
    cases h
  simp only [admitBlock] at h
  split at h
  · rename_i he
    cases h
    exact absurd ht (hbody (parentUtxo_isBody he))
  · split at h
    · rename_i he
      cases h
      exact he
    · split at h
      · cases h
        cases ht
      · split at h
        · cases h
          exact absurd ht (hbody (toChain_isBody _ _))
        · split at h
          · cases h
            cases ht
          · rw [forkChoice_time_error h] at ht
            cases ht

/-- An error about time comes from the expected target or from the median, and the median
    is looked at only when the candidate is later than its parent. -/
theorem process_time_error {v : Verifier} {now : Option UInt64} {st : ChainState} {b : Block} {e : ChainError}
    (h : (processBlockWithVerifier H v now st b).2 = .error e) (ht : e.isTime = true) :
    ∃ parent, st.tree.getNode b.header.previousBlockHash = some parent ∧
      (expectedTarget (st.tree.getPathFromGenesis b.header.previousBlockHash) parent = .error e ∨
        (parent.block.header.timestamp < b.header.timestamp ∧
          checkMedianTime (st.tree.headersTo b.header.previousBlockHash) b.header = .error e)) := by
  simp only [processBlockWithVerifier] at h
  split at h
  · cases h
    cases ht
  · split at h
    · cases h
      cases ht
    · split at h
      · cases h
        cases ht
      · split at h
        · cases h
        · split at h
          · cases h
            cases ht
          · rename_i parent hpar
            refine ⟨parent, hpar, ?_⟩
            split at h
            · rename_i he
              cases h
              exact .inl (checkHeader_time_error he ht)
            · rename_i hhead
              exact .inr ⟨(checkHeader_ok hhead).2, admitBlock_time_error (Prod.ext rfl h) ht⟩

/-- In every reachable tree time strictly increases along every path, so no candidate
    later than its parent is before the median of its path, every retarget window spans
    some time, and no call answers with either error. -/
theorem time_errors_unreachable {utxo : UtxoSet} {st : ChainState}
    (hr : Reach H anyResult ⟨ChainTree.new H genesis, utxo⟩ st) :
    (∀ k n, st.tree.getNode k = some n →
      ((st.tree.getPathFromGenesis k).Pairwise fun a b => a.block.header.timestamp < b.block.header.timestamp) ∧
      (∀ header : BlockHeader, n.block.header.timestamp < header.timestamp →
        checkMedianTime (st.tree.headersTo k) header = .ok ()) ∧
      ∀ s f, expectedTarget (st.tree.getPathFromGenesis k) n ≠ .error (.difficulty (.invalidObservedTime s f))) ∧
    ∀ (v : Verifier) (now : Option UInt64) (b : Block),
      (processBlockWithVerifier H v now st b).2 ≠ .error .timestampBeforeMedianTimePast ∧
      ∀ s f, (processBlockWithVerifier H v now st b).2 ≠ .error (.difficulty (.invalidObservedTime s f)) := by
  have htree := reach_treeInv hr
  have hno : ∀ (v : Verifier) (now : Option UInt64) (b : Block) (e : ChainError), e.isTime = true →
      (processBlockWithVerifier H v now st b).2 ≠ .error e := by
    intro v now b e ht h
    obtain ⟨parent, hpar, hE | ⟨hlater, hM⟩⟩ := process_time_error h ht
    · obtain ⟨T, hT⟩ := htree.expectedTarget_ok hpar
      rw [hT] at hE
      cases hE
    · rw [htree.median_of_later hpar hlater] at hM
      cases hM
  refine ⟨fun k n hk => ⟨htree.increasing hk, fun header hlater => htree.median_of_later hk hlater, ?_⟩,
    fun v now b => ⟨hno v now b _ rfl, fun s f => hno v now b _ rfl⟩⟩
  intro s f h
  obtain ⟨T, hT⟩ := htree.expectedTarget_ok hk
  rw [hT] at h
  cases h

/-- The first block on the genesis block. -/
theorem time_errors_unreachable_first : let H := Blake3.digest
    (processBlock H (some 1000) (sampleStart H) (sampleBlock H)).2 ≠ .error .timestampBeforeMedianTimePast :=
  ((time_errors_unreachable .start).2 _ _ _).1

end Scytale
