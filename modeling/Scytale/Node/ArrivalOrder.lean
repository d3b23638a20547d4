/-
  Scytale.Node.ArrivalOrder — what a block submitted before its parent loses by it.

  - `steps_keeps_marks`: a block recorded as invalid stays so, whatever the node does
    short of a restart.
  - `early_submission_iff`: a block whose parent is unknown fails, and from then on counts
    as invalid. Submitted again, after any other operations, it is answered as if the
    first submission had not been made only if it or its parent counted as invalid anyway.
-/
import Scytale.Node.Run

namespace Scytale

open Lib

variable {H : Hasher} {eng : Engines}

/-! ## What counts as invalid stays so -/

/-- No operation takes a block back from the record. -/
theorem step_keeps_marks {node : Node} {k : Hash256} (h : node.chain.tree.isBlockInvalid k = true) (op : NodeOp) :
    (node.step H eng op).chain.tree.isBlockInvalid k = true := by
  rcases step_tree H eng node op with e | ⟨j, e⟩ | ⟨b, -, e⟩
  · rw [e]
    exact h
  · rw [e, ChainTree.isBlockInvalid_mark, h]
    simp
  · rw [e]
    exact (process_outcome H _ op.clock node.chain b).keeps_marks h

def steps (H : Hasher) (eng : Engines) : Node → List NodeOp → Node
  | node, [] => node
  | node, op :: ops => steps H eng (node.step H eng op) ops

theorem steps_keeps_marks {ops : List NodeOp} {k : Hash256} : ∀ {node : Node},
    node.chain.tree.isBlockInvalid k = true → (steps H eng node ops).chain.tree.isBlockInvalid k = true := by
  induction ops with
  | nil => intro node h; exact h
  | cons op ops ih => intro node h; exact ih (step_keeps_marks h op)

/-! ## A block before its parent -/

theorem submit_flagged {now : Option UInt64} {fault : Option StorageError} {node : Node} {b : Block}
    (h : Flagged H node b) :
    submitExternalBlock H eng now fault node b = (node, .error (.flagged (b.header.hash H))) := by
  have : (node.chain.tree.isBlockInvalid (b.header.hash H) ||
      node.chain.tree.isBlockInvalid b.header.previousBlockHash) = true := by simpa [Flagged] using h
  simp only [submitExternalBlock, this, if_true]
  rfl

theorem stageBlock_not_flagged {b : Block} {height : UInt64} {s : UtxoSet} {e : NodeError} {k : Hash256}
    (h : stageBlock H eng b height s = .error e) : e ≠ .flagged k := by
  unfold stageBlock at h
  split at h
  · cases h
    exact fun h => by cases h
  · split at h
    · cases h
      exact fun h => by cases h
    · cases h

theorem stageNodes_not_flagged {k : Hash256} {ns : List BlockNode} : ∀ {s : UtxoSet} {e : NodeError},
    stageNodes H eng s ns = .error e → e ≠ .flagged k := by
  induction ns with
  | nil => intro s e h; cases h
  | cons n ns ih =>
    intro s e h
    unfold stageNodes at h
    split at h
    · rename_i e' he'
      cases h
      exact stageBlock_not_flagged he'
    · exact ih h

theorem preValidate_not_flagged {chain : ChainState} {b : Block} {e : NodeError} {k : Hash256}
    (h : preValidate H eng chain b = .error e) : e ≠ .flagged k := by
  unfold preValidate at h
  split at h
  · split at h
    · rename_i e' he'
      cases h
      exact stageBlock_not_flagged he'
    · cases h
  · simp only [preValidateReorgBranch] at h
    split at h
    · rename_i e' he'
      cases h
      unfold ChainTree.findCommonAncestor at he'
      split at he'
      · cases he'
      · cases he'
        exact fun h => by cases h
    · split at h
      · cases h
        exact fun h => by cases h
      · split at h
        · rename_i e' he'
          cases h
          exact stageNodes_not_flagged he'
        · split at h
          · rename_i e' he'
            cases h
            exact stageBlock_not_flagged he'
          · cases h

/-- The tree has other words for a block recorded as invalid, or under one. -/
theorem Outcome.not_flagged {v : Verifier} {now : Option UInt64} {st : ChainState} {b : Block}
    {r : ChainState × Except ChainError (Option ReorgResult)} (o : Outcome H v now st b r) {k : Hash256}
    (h : r.2 = .error (.invalidBranchBlock k "Block or ancestor is marked as invalid")) : False := by
  cases o with
  | refused e he hc =>
    obtain rfl := Except.error.inj h
    rcases hc with hc | ⟨hc, -⟩
    · cases hc
    · exact absurd (ChainError.invalidBranchBlock.inj hc).2 (by decide)
  | marked hs e he why hc =>
    obtain rfl := Except.error.inj h
    rcases hc with hc | hc
    · cases hc
    · exact absurd (ChainError.invalidBranchBlock.inj hc).2 (by decide)
  | known | side | deep | switched => cases h

/-- Only a flagged block is answered so. -/
theorem flagged_of_answer {now : Option UInt64} {fault : Option StorageError} {node : Node} {b : Block}
    (h : (submitExternalBlock H eng now fault node b).2 = .error (.flagged (b.header.hash H))) : Flagged H node b := by
  by_contra hun
  have o := submit_outcome H eng now fault node b
  generalize submitExternalBlock H eng now fault node b = r at o h
  cases o with
  | flagged hf => exact hun hf
  | panicked e _ hpre => exact preValidate_not_flagged hpre (Except.error.inj h)
  | rejected e _ hpre => exact preValidate_not_flagged hpre (Except.error.inj h)
  | refused chain e _ _ hproc =>
    have he : e = .invalidBranchBlock (b.header.hash H) "Block or ancestor is marked as invalid" :=
      NodeError.consensus.inj (Except.error.inj h)
    have o := process_outcome H (nodeBlockVerifier H eng) now node.chain b
    rw [hproc, he] at o
    exact o.not_flagged rfl
  | aside => cases h
  | unstored => cases h
  | moved => cases h

/-- A block whose parent is unknown has no branch to validate. -/
theorem preValidate_orphan (eng : Engines) {genesis : Block} {chain : ChainState} (h : TreeInv H genesis chain.tree) {b : Block}
    (horphan : chain.tree.getNode b.header.previousBlockHash = none) : preValidate H eng chain b =
      .error (.consensus (.commonAncestorNotFound chain.tree.canonicalTip b.header.previousBlockHash)) := by
  obtain ⟨tip, htip⟩ := h.tip
  have hne : b.header.previousBlockHash ≠ chain.tree.canonicalTip := by
    intro e
    rw [e, htip] at horphan
    cases horphan
  have hanc : chain.tree.findCommonAncestor chain.tree.canonicalTip b.header.previousBlockHash =
      .error (.commonAncestorNotFound chain.tree.canonicalTip b.header.previousBlockHash) := by
    rw [ChainTree.findCommonAncestor, Ancestry.commonAncestor, if_neg (Ne.symm hne), Ancestry.chain_eq_nil horphan]
    rfl
  simp only [preValidate, if_neg hne, preValidateReorgBranch, hanc]

/-- It fails, and is recorded as invalid unless it was flagged. -/
theorem submit_orphan (eng : Engines) {genesis : Block} (now : Option UInt64) (fault : Option StorageError) {node : Node}
    (h : TreeInv H genesis node.chain.tree) {b : Block}
    (horphan : node.chain.tree.getNode b.header.previousBlockHash = none) :
    (∃ e, (submitExternalBlock H eng now fault node b).2 = .error e) ∧
      (Flagged H node b → (submitExternalBlock H eng now fault node b).1 = node) ∧
      (¬ Flagged H node b →
        (submitExternalBlock H eng now fault node b).1.chain.tree.isBlockInvalid (b.header.hash H) = true) := by
  have hpre := preValidate_orphan eng h horphan
  have o := submit_outcome H eng now fault node b
  generalize submitExternalBlock H eng now fault node b = r at o
  cases o with
  | flagged hf => exact ⟨⟨_, rfl⟩, fun _ => rfl, fun hn => absurd hf hn⟩
  | panicked e hn hpre' hp =>
    rw [hpre] at hpre'
    cases hpre'
    cases hp
  | rejected e hn =>
    refine ⟨⟨_, rfl⟩, fun hf => absurd hf hn, fun _ => ?_⟩
    rw [ChainTree.isBlockInvalid_mark]
    simp
  | refused _ _ _ hpre' => rw [hpre] at hpre'; cases hpre'
  | aside _ _ hpre' => rw [hpre] at hpre'; cases hpre'
  | unstored _ _ _ _ hpre' => rw [hpre] at hpre'; cases hpre'
  | moved _ _ _ _ hpre' => rw [hpre] at hpre'; cases hpre'

/-- From every node of every run, a block whose parent is unknown fails; submitted again
    after any operations, it is answered as without the first submission exactly when it or
    its parent counted as invalid at the first submission, or does so now all the same. -/
theorem early_submission_iff {node : Node} (hr : NodeRun H eng node) {b : Block}
    (horphan : node.chain.tree.getNode b.header.previousBlockHash = none) (now now' : Option UInt64)
    (fault fault' : Option StorageError) (between : List NodeOp) :
    (∃ e, (submitExternalBlock H eng now fault node b).2 = .error e) ∧
      ((submitExternalBlock H eng now' fault'
          (steps H eng (submitExternalBlock H eng now fault node b).1 between) b).2 =
        (submitExternalBlock H eng now' fault' (steps H eng node between) b).2 ↔
        Flagged H node b ∨ Flagged H (steps H eng node between) b) := by
  obtain ⟨genesis, htree⟩ := nodeRun_treeInv hr
  obtain ⟨hfails, hsame, hmarks⟩ := submit_orphan eng now fault htree horphan
  refine ⟨hfails, ?_⟩
  by_cases hf : Flagged H node b
  · simp only [hsame hf, hf, true_or]
  · -- recorded by the early submission, it stays so
    have hlater : Flagged H (steps H eng (submitExternalBlock H eng now fault node b).1 between) b :=
      Or.inl (steps_keeps_marks (hmarks hf))
    rw [submit_flagged hlater]
    constructor
    · exact fun h => Or.inr (flagged_of_answer h.symm)
    · rintro (h | h)
      · exact absurd h hf
      · rw [submit_flagged h]

/-! ## A child before its parent -/

set_option maxRecDepth 10000 in
/-- In order both blocks are taken; with the second submitted early as well, it is
    refused for good. -/
theorem child_before_parent :
    let H := Blake3.digest
    let submit := submitExternalBlock H acceptAll (some 1000) none
    let early := (submit (freshNode H) (secondBlock H)).1
    (freshNode H).chain.tree.getNode (secondBlock H).header.previousBlockHash = none ∧
      (submit (freshNode H) (firstBlock H)).2 = .ok true ∧ (submit (firstNode H) (secondBlock H)).2 = .ok true ∧
      (submit early (firstBlock H)).2 = .ok true ∧
      (submit (submit early (firstBlock H)).1 (secondBlock H)).2 =
        .error (.flagged ((secondBlock H).header.hash H)) := by decide +kernel

set_option maxRecDepth 10000 in
theorem early_submission_twice :
    let H := Blake3.digest
    let submit := submitExternalBlock H acceptAll (some 1000) none
    let early := (submit (freshNode H) (secondBlock H)).1
    (freshNode H).chain.tree.getNode (secondBlock H).header.previousBlockHash = none ∧
      ((submit early (secondBlock H)).2 = (submit (freshNode H) (secondBlock H)).2 ↔
        Flagged H (freshNode H) (secondBlock H) ∨ Flagged H (freshNode H) (secondBlock H)) :=
  ⟨by decide +kernel,
    (early_submission_iff (.fresh freshNode_recovered) (by decide +kernel) (some 1000) (some 1000) none none []).2⟩

end Scytale
