/-
  Scytale.Core.MerkleProof — proofs that an output is in a set of unspent outputs
  (crates/scytale-core/src/utxo.rs, `UtxoMerkleProof`, `generate_utxo_merkle_proof`).

  A proof states an outpoint, a value and a locking condition, and carries a leaf and the
  siblings on the way to the root. The verifier climbs from the leaf; that the leaf is the
  statement's is checked only when the locking condition is not empty.
  - `generated_proof_verifies`: for every output of every set, in whatever order its
    entries are listed, a proof is generated and verifies against the set's root.
  - `verify_sound`: a proof with a locking condition that verifies states what the set has,
    whatever leaf, siblings and sides it carries.
  - `verify_sound_iff`: a statement is safe from every such proof exactly when its locking
    condition is not empty or the set has it (`forged_value` is one that is not).
-/
import Scytale.Core.UtxoRoot

namespace Scytale

open Lib

/-- The errors of `CoreError` met here; `panicked` is an index out of range. -/
inductive CoreError where
  | utxo (e : UtxoError)
  | panicked
  deriving DecidableEq

structure UtxoMerkleProof where
  outpoint : OutPoint
  valueQuanta : UInt64
  lockingCondition : Bytes
  leafHash : Hash256
  /-- Each sibling, and whether it is the right one. -/
  auditPath : List (Hash256 × Bool)
  leafIndex : Nat
  deriving DecidableEq

section
variable (H : Hasher)

def UtxoMerkleProof.verify (p : UtxoMerkleProof) (expectedRoot : Hash256) : Bool :=
  if p.lockingCondition.isEmpty = false ∧
      UtxoSet.computeUtxoLeaf H p.outpoint ⟨p.valueQuanta, p.lockingCondition⟩ ≠ p.leafHash then false
  else Merkle.climb (UtxoSet.combine H) p.leafHash p.auditPath == expectedRoot

def generateUtxoMerkleProof (utxos : List (OutPoint × UtxoEntry)) (targetOutpoint : OutPoint) :
    Except CoreError UtxoMerkleProof :=
  if utxos.isEmpty then .error (.utxo (.missingUtxo targetOutpoint))
  else
    let sorted := utxos.insertionSort fun a b => OutPoint.le a.1 b.1
    match sorted.findIdx? fun item => item.1 == targetOutpoint with
    | none => .error (.utxo (.missingUtxo targetOutpoint))
    | some targetIdx =>
      let leaves := sorted.map fun item => UtxoSet.computeUtxoLeaf H item.1 item.2.output
      match sorted[targetIdx]?, leaves[targetIdx]?, Merkle.audit (UtxoSet.combine H) leaves.length leaves targetIdx with
      | some targetItem, some targetLeafHash, some auditPath =>
        .ok ⟨targetOutpoint, targetItem.2.output.value, targetItem.2.output.lockingCondition, targetLeafHash, auditPath,
          targetIdx⟩
      | _, _, _ => .error .panicked

end

variable {H : Hasher}

/-! ## Generated proofs -/

/-- An outpoint of a table stands at one place of its rows. -/
theorem findIdx?_rows {s : UtxoSet} {o : OutPoint} {e : UtxoEntry} (h : s.entries[o]? = some e) :
    ∃ i, (s.entries.toList.findIdx? fun item => item.1 == o) = some i ∧ s.entries.toList[i]? = some (o, e) := by
  have hmem : (o, e) ∈ s.entries.toList := Table.mem_toList.mpr h
  cases hf : s.entries.toList.findIdx? fun item => item.1 == o with
  | none =>
    have := List.findIdx?_eq_none_iff.mp hf (o, e) hmem
    simp at this
  | some i =>
    obtain ⟨hi, hat, -⟩ := List.findIdx?_eq_some_iff_getElem.mp hf
    refine ⟨i, rfl, ?_⟩
    have hkey : s.entries.toList[i].1 = o := beq_iff_eq.mp hat
    have hrow : s.entries[s.entries.toList[i].1]? = some s.entries.toList[i].2 :=
      Table.mem_toList.mp (List.getElem_mem hi)
    rw [hkey, h] at hrow
    rw [List.getElem?_eq_getElem hi]
    exact congrArg some (Prod.ext hkey (Option.some.inj hrow).symm)

/-- What is generated for an output: its own leaf, and a path to the set's root over nodes of the
    set's tree. -/
theorem generate_ok (s : UtxoSet) {utxos : List (OutPoint × UtxoEntry)} (hlisted : utxos.Perm s.entries.toList)
    {o : OutPoint} {e : UtxoEntry} (h : s.entries[o]? = some e) :
    ∃ path i, generateUtxoMerkleProof H utxos o = .ok ⟨o, e.output.value, e.output.lockingCondition,
        UtxoSet.computeUtxoLeaf H o e.output, path, i⟩ ∧
      Merkle.climb (UtxoSet.combine H) (UtxoSet.computeUtxoLeaf H o e.output) path = s.computeUtxoRoot H ∧
      ∀ p ∈ Merkle.climbed (UtxoSet.combine H) (UtxoSet.computeUtxoLeaf H o e.output) path,
        p ∈ Merkle.combined (UtxoSet.combine H) (UtxoSet.leaves H s.rows) := by
  obtain ⟨i, hfind, hat⟩ := findIdx?_rows h
  have hne : utxos.isEmpty = false := by
    have : (o, e) ∈ utxos := hlisted.mem_iff.mpr (Table.mem_toList.mpr h)
    cases utxos with
    | nil => cases this
    | cons => rfl
  have hleaf : (s.entries.toList.map fun item => UtxoSet.computeUtxoLeaf H item.1 item.2.output)[i]? =
      some (UtxoSet.computeUtxoLeaf H o e.output) := by rw [List.getElem?_map, hat]; rfl
  have hrows : UtxoSet.leaves H s.rows = s.entries.toList.map fun item => UtxoSet.computeUtxoLeaf H item.1 item.2.output := by
    rw [UtxoSet.leaves, UtxoSet.rows, List.map_map]
    rfl
  rw [hrows]
  generalize hl : (s.entries.toList.map fun item => UtxoSet.computeUtxoLeaf H item.1 item.2.output) = l at hleaf
  have hroot : s.computeUtxoRoot H = (Merkle.root (UtxoSet.combine H) l).getD Hash256.zero := by
    rw [UtxoSet.computeUtxoRoot, UtxoSet.computeUtxoMerkleRoot_eq, hl]
  obtain ⟨r, hr⟩ : ∃ r, Merkle.root (UtxoSet.combine H) l = some r :=
    Merkle.loop_isSome _ fun hnil => by rw [hnil] at hleaf; cases hleaf
  obtain ⟨path, hpath, hclimb, hmem⟩ := Merkle.audit_climbs l.length (Nat.le_succ _) hleaf hr
  refine ⟨path, i, ?_, ?_, hmem⟩
  · simp only [generateUtxoMerkleProof, hne, Bool.false_eq_true, if_false, UtxoSet.sort_listed hlisted, hfind, hl, hat,
      hleaf, hpath]
  · rw [hclimb, hroot, hr, Option.getD_some]

/-- A proof with its statement's own leaf verifies against the root its path leads to, and
    against no other. -/
theorem verify_own_leaf {o : OutPoint} {value : UInt64} {lock : Bytes} {path : List (Hash256 × Bool)} {i : Nat}
    {root : Hash256} :
    UtxoMerkleProof.verify H ⟨o, value, lock, UtxoSet.computeUtxoLeaf H o ⟨value, lock⟩, path, i⟩ root = true ↔
      Merkle.climb (UtxoSet.combine H) (UtxoSet.computeUtxoLeaf H o ⟨value, lock⟩) path = root := by
  simp only [UtxoMerkleProof.verify, ne_eq, not_true_eq_false, and_false, if_false, beq_iff_eq]

theorem generated_proof_verifies (s : UtxoSet) {utxos : List (OutPoint × UtxoEntry)}
    (hlisted : utxos.Perm s.entries.toList) {o : OutPoint} {e : UtxoEntry} (h : s.entries[o]? = some e) :
    ∃ p, generateUtxoMerkleProof H utxos o = .ok p ∧ p.outpoint = o ∧ p.valueQuanta = e.output.value ∧
      p.lockingCondition = e.output.lockingCondition ∧ p.verify H (s.computeUtxoRoot H) = true := by
  obtain ⟨path, i, hgen, hclimb, -⟩ := generate_ok (H := H) s hlisted h
  exact ⟨_, hgen, rfl, rfl, rfl, verify_own_leaf.mpr hclimb⟩

/-- The last of three outputs, listed first. -/
theorem generated_proof_verifies_three : let s := UtxoSet.threeOutputs 1 true
    ∃ p, generateUtxoMerkleProof Blake3.digest s.entries.toList.reverse ⟨Hash256.zero, 2⟩ = .ok p ∧
      p.outpoint = ⟨Hash256.zero, 2⟩ ∧ p.valueQuanta = 900 ∧ p.lockingCondition = [] ∧
      p.verify Blake3.digest (s.computeUtxoRoot Blake3.digest) = true :=
  generated_proof_verifies (UtxoSet.threeOutputs 1 true) (List.reverse_perm _) (e := ⟨⟨900, []⟩, 1, true⟩) (by decide +kernel)

/-! ## Proofs of any origin -/

namespace UtxoMerkleProof

/-- What the proof states of its outpoint. -/
def output (p : UtxoMerkleProof) : TxOut := ⟨p.valueQuanta, p.lockingCondition⟩

/-- The set has the output the proof states. -/
def Holds (p : UtxoMerkleProof) (s : UtxoSet) : Prop := s.entries[p.outpoint]?.map UtxoEntry.output = some p.output

instance (p : UtxoMerkleProof) (s : UtxoSet) : Decidable (p.Holds s) := inferInstanceAs (Decidable (_ = _))

/-- What the verifier digests on its way up. -/
def pathStrings (H : Hasher) (p : UtxoMerkleProof) : List Bytes :=
  (Merkle.climbed (UtxoSet.combine H) p.leafHash p.auditPath).map fun q => q.1.bytes ++ q.2.bytes

/-- What is assumed of the digest: no collision, no leaf that is an inner node and no zero
    among the strings of the set's tree, the statement's leaf and the path. -/
def Apart (H : Hasher) (s : UtxoSet) (p : UtxoMerkleProof) : Prop :=
  UtxoSet.Apart H (UtxoSet.leafString p.outpoint p.output :: UtxoSet.leafStrings s.rows)
    (UtxoSet.nodeStrings H s.rows ++ p.pathStrings H)

instance (H : Hasher) (s : UtxoSet) (p : UtxoMerkleProof) : Decidable (p.Apart H s) :=
  inferInstanceAs (Decidable (UtxoSet.Apart _ _ _))

variable {s : UtxoSet} {p : UtxoMerkleProof}

theorem verify_leaf (hlock : p.lockingCondition ≠ []) {root : Hash256} (hv : p.verify H root = true) :
    p.leafHash = H (UtxoSet.leafString p.outpoint p.output) ∧
      Merkle.climb (UtxoSet.combine H) p.leafHash p.auditPath = root := by
  have hne : p.lockingCondition.isEmpty = false := by simpa using hlock
  unfold verify at hv
  split at hv
  · cases hv
  · rename_i hleaf
    simp only [hne, true_and, ne_eq, not_not] at hleaf
    exact ⟨hleaf.symm, beq_iff_eq.mp hv⟩

/-- Where a path leads is its leaf or an inner node on it. -/
theorem climb_cases (x : Hash256) (path : List (Hash256 × Bool)) :
    (path = [] ∧ Merkle.climb (UtxoSet.combine H) x path = x) ∨
      ∃ q ∈ Merkle.climbed (UtxoSet.combine H) x path,
        Merkle.climb (UtxoSet.combine H) x path = UtxoSet.combine H q.1 q.2 := by
  cases path using List.reverseRecOn with
  | nil => exact .inl ⟨rfl, rfl⟩
  | append_singleton path t =>
    rw [Merkle.climbed_append, Merkle.climb_append]
    exact .inr ⟨_, List.mem_append_right _ List.mem_cons_self, Merkle.climb_singleton _ t⟩

/-- No path of the proof leads to zero. -/
theorem climb_ne_zero (h : p.Apart H s) (hleaf : p.leafHash = H (UtxoSet.leafString p.outpoint p.output)) :
    Merkle.climb (UtxoSet.combine H) p.leafHash p.auditPath ≠ Hash256.zero := by
  rcases climb_cases p.leafHash p.auditPath with ⟨-, hc⟩ | ⟨q, hq, hc⟩
  · rw [hc, hleaf]
    exact h.nonzero _ (List.mem_append_left _ List.mem_cons_self)
  · rw [hc]
    exact h.nonzero _ (List.mem_append_right _ (List.mem_append_right _ (List.mem_map.mpr ⟨q, hq, rfl⟩)))

/-- A proof that names its leaf and verifies states what the set has. -/
theorem verify_sound (h : p.Apart H s) (hlock : p.lockingCondition ≠ [])
    (hv : p.verify H (s.computeUtxoRoot H) = true) : p.Holds s := by
  obtain ⟨hleaf, hclimb⟩ := verify_leaf hlock hv
  rw [UtxoSet.computeUtxoRoot_eq, UtxoSet.computeUtxoMerkleRoot_eq] at hclimb
  cases hr : Merkle.root (UtxoSet.combine H) (UtxoSet.leaves H s.rows) with
  | none =>
    rw [hr] at hclimb
    exact absurd hclimb (climb_ne_zero h hleaf)
  | some d =>
    rw [hr] at hclimb
    have hnode : ∀ q : Hash256 × Hash256, q ∈ Merkle.combined (UtxoSet.combine H) (UtxoSet.leaves H s.rows) ∨
        q ∈ Merkle.climbed (UtxoSet.combine H) p.leafHash p.auditPath →
        q.1.bytes ++ q.2.bytes ∈ UtxoSet.nodeStrings H s.rows ++ p.pathStrings H := fun q hq =>
      List.mem_append.mpr (hq.imp UtxoSet.mem_nodeStrings fun hq => List.mem_map.mpr ⟨q, hq, rfl⟩)
    have hstring : ∀ y, y ∈ UtxoSet.leaves H s.rows ∨ y = p.leafHash →
        ∃ a ∈ UtxoSet.leafString p.outpoint p.output :: UtxoSet.leafStrings s.rows, y = H a := by
      rintro y (hy | rfl)
      · exact (UtxoSet.exists_leafString hy).imp fun a ha => ⟨List.mem_cons_of_mem _ ha.1, ha.2⟩
      · exact ⟨_, List.mem_cons_self, hleaf⟩
    have hmem : p.leafHash ∈ UtxoSet.leaves H s.rows := by
      refine Merkle.mem_of_climb hr (h.pair_inj hnode) (fun y hy q hq => ?_) hclimb
      obtain ⟨a, ha, rfl⟩ := hstring y hy
      exact h.apart a ha _ (hnode q hq)
    -- the row with this leaf is the one stated
    obtain ⟨q, hq, hql⟩ := List.mem_map.mp hmem
    have hrow : q = (p.outpoint, p.output) := by
      refine h.leaf_inj (R := {r | r = (p.outpoint, p.output) ∨ r ∈ s.rows}) ?_ (.inr hq) (.inl rfl) (hql.trans hleaf)
      rintro r (rfl | hr)
      · exact List.mem_cons_self
      · exact List.mem_cons_of_mem _ (UtxoSet.mem_leafStrings hr)
    exact UtxoSet.mem_rows.mp (hrow ▸ hq)

/-- No proof of the statement verifies unless the set has the output stated: exactly when
    its locking condition is not empty, or the set has it. -/
theorem verify_sound_iff (s : UtxoSet) (o : OutPoint) (value : UInt64) (lock : Bytes)
    (h : Apart H s ⟨o, value, lock, s.computeUtxoRoot H, [], 0⟩) :
    (∀ leafHash auditPath leafIndex, Apart H s ⟨o, value, lock, leafHash, auditPath, leafIndex⟩ →
      verify H ⟨o, value, lock, leafHash, auditPath, leafIndex⟩ (s.computeUtxoRoot H) = true →
      s.entries[o]?.map UtxoEntry.output = some ⟨value, lock⟩) ↔
    lock ≠ [] ∨ s.entries[o]?.map UtxoEntry.output = some ⟨value, lock⟩ := by
  constructor
  · intro hall
    refine or_iff_not_imp_left.mpr fun hlock => hall _ _ _ h ?_
    -- the root itself for a leaf, and nothing to climb
    rw [not_not.mp hlock]
    simp [verify]
  · rintro (hlock | hholds) leafHash auditPath leafIndex hsep hv
    · exact verify_sound hsep hlock hv
    · exact hholds

set_option maxRecDepth 10000 in
/-- A value the set does not have there, with a locking condition. -/
theorem verify_sound_iff_three : let H := Blake3.digest
    let s := UtxoSet.threeOutputs 1 true
    (∀ leafHash auditPath leafIndex, Apart H s ⟨⟨Hash256.zero, 0⟩, 701, [0x51], leafHash, auditPath, leafIndex⟩ →
      verify H ⟨⟨Hash256.zero, 0⟩, 701, [0x51], leafHash, auditPath, leafIndex⟩ (s.computeUtxoRoot H) = true →
      s.entries[(⟨Hash256.zero, 0⟩ : OutPoint)]?.map UtxoEntry.output = some ⟨701, [0x51]⟩) ↔
    ([0x51] : Bytes) ≠ [] ∨ s.entries[(⟨Hash256.zero, 0⟩ : OutPoint)]?.map UtxoEntry.output = some ⟨701, [0x51]⟩ :=
  verify_sound_iff (UtxoSet.threeOutputs 1 true) ⟨Hash256.zero, 0⟩ 701 [0x51] (by decide +kernel)

set_option maxRecDepth 10000 in
/-- With no locking condition any value verifies: the root is its own leaf. -/
theorem forged_value : ¬ ∀ (s : UtxoSet) (p : UtxoMerkleProof), p.Apart Blake3.digest s →
    p.verify Blake3.digest (s.computeUtxoRoot Blake3.digest) = true → p.Holds s := by
  intro h
  have hbad := h (UtxoSet.threeOutputs 1 true)
    ⟨⟨Hash256.zero, 0⟩, 1000000, [], (UtxoSet.threeOutputs 1 true).computeUtxoRoot Blake3.digest, [], 0⟩
    (by decide +kernel) (by decide +kernel)
  revert hbad
  decide +kernel

end UtxoMerkleProof

end Scytale
