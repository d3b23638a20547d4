/-
  Scytale.Consensus.Malleation — what a block with the same header and another body does
  to the honest one.

  The record of invalid blocks is keyed by the header's hash, and the header does not
  determine the body until the commitment has been checked; a body that fails there has
  its header's hash recorded, and the honest block is refused from then on.
  - `commitment_inj`: the commitment determines the body, unless the digest collides.
  - `process_turnedAway`, `process_aside`, `process_overtakes` and the like: what the call
    with the other body leaves.
  - `unpoisoned_iff`: the honest block then fares as if it had come alone exactly in the
    cases `Harmless` lists.
-/
import Scytale.Core.TxIdentity
import Scytale.Consensus.Replay

namespace Scytale

open Lib

variable {H : Hasher} {genesis : Block}

/-! ## The commitment -/

/-- The strings that are hashed for a block's commitment. -/
def Block.committedStrings (H : Hasher) (b : Block) : List Bytes :=
  (b.transactions.flatMap fun t => (t.txid H).bytes) :: b.transactions.map Transaction.canonicalBytes

theorem txids_length (H : Hasher) (txs : List Transaction) : (txs.flatMap fun t => (t.txid H).bytes).length = 32 * txs.length := by
  induction txs with
  | nil => rfl
  | cons t txs ih =>
    rw [List.flatMap_cons, List.length_append, ih, (t.txid H).size, List.length_cons]
    omega

/-- Equal commitments come from equal bodies. -/
theorem commitment_inj {a b : Block} (hH : CollisionFree H (a.committedStrings H ++ b.committedStrings H))
    (ea : a.encodable = true) (eb : b.encodable = true) (sa : ∀ t ∈ a.transactions, t.sized)
    (sb : ∀ t ∈ b.transactions, t.sized) (h : transactionCommitment H a = transactionCommitment H b) :
    a.transactions = b.transactions := by
  have hbytes := hH _ (List.mem_append_left _ List.mem_cons_self) _ (List.mem_append_right _ List.mem_cons_self) h
  have hlen : a.transactions.length = b.transactions.length := by
    have := congrArg List.length hbytes
    rw [txids_length, txids_length] at this
    omega
  have hin : ∀ t, t ∈ a.transactions ∨ t ∈ b.transactions →
      t.canonicalBytes ∈ a.committedStrings H ++ b.committedStrings H ∧ t.encodable = true ∧ t.sized := by
    rintro t (ht | ht)
    · exact ⟨List.mem_append_left _ (List.mem_cons_of_mem _ (List.mem_map.mpr ⟨t, ht, rfl⟩)),
        List.all_eq_true.mp ea t ht, sa t ht⟩
    · exact ⟨List.mem_append_right _ (List.mem_cons_of_mem _ (List.mem_map.mpr ⟨t, ht, rfl⟩)),
        List.all_eq_true.mp eb t ht, sb t ht⟩
  have hdelim : SelfDelimiting (fun t => t ∈ a.transactions ∨ t ∈ b.transactions) fun t => (t.txid H).bytes := by
    intro x y r s hx hy h
    obtain ⟨h1, h2⟩ := List.append_inj h (by rw [(x.txid H).size, (y.txid H).size])
    obtain ⟨mx, ex, sx⟩ := hin x hx
    obtain ⟨my, ey, sy⟩ := hin y hy
    exact ⟨txid_inj hH mx my ex ey sx sy (Hash256.ext_bytes h1), h2⟩
  exact (hdelim.list (r := []) (s := []) hlen (fun _ ht => Or.inl ht) (fun _ ht => Or.inr ht) (by simpa using hbytes)).1

theorem authoritative_commitment {b : Block} {height : UInt64} {pu : UtxoSet} {hs : List BlockHeader} {fees : UInt64}
    (h : validateBlockAuthoritativeWithHeaders H b height pu hs = .ok fees) :
    b.header.transactionCommitment = transactionCommitment H b := by
  unfold validateBlockAuthoritativeWithHeaders at h
  split at h
  · cases h
  · split at h
    · cases h
    · rename_i hc
      exact not_not.mp hc

/-! ## The call with the other body -/

/-- The block is heavier than the tip and its branch is within the depth limit. -/
def Overtakes (st : ChainState) (node : BlockNode) : Prop :=
  ∃ tip ancestor, st.tree.getNode st.tree.canonicalTip = some tip ∧ tip.cumulativeWork.val < node.cumulativeWork.val ∧
    st.tree.findCommonAncestor st.tree.canonicalTip node.parentHash = .ok ancestor ∧
    UInt64.ofNat (st.tree.walkUpto st.tree.canonicalTip ancestor).length ≤ st.tree.maxReorgDepth

/-- The cases in which `other` does not stand in the way of `b`. -/
inductive Harmless (H : Hasher) (now : Option UInt64) (st : ChainState) (other b : Block) : Prop where
  /-- Its hash is recorded as invalid already. -/
  | recorded (h : st.tree.isBlockInvalid (other.header.hash H) = true)
  /-- It is turned away before its transactions are looked at, and not for its parent. -/
  | turnedAway (hp : st.tree.isBlockInvalid other.header.previousBlockHash = false)
      (h : ∀ parent pu, ¬ Examined H now st other parent pu)
  /-- It has a byte vector the encoder does not take. -/
  | unencodable (hp : st.tree.isBlockInvalid other.header.previousBlockHash = false) (h : other.encodable = false)
  /-- It is valid, and its work overflows. -/
  | overflow (parent : BlockNode) (pu : UtxoSet) (adm : Admitted H now st other parent pu)
      (h : newNode H parent other = none)
  /-- It is valid and stored beside the tip, and `b` would not pass the structural check. -/
  | aside (parent node : BlockNode) (pu : UtxoSet) (adm : Admitted H now st other parent pu)
      (hnode : newNode H parent other = some node) (hside : ¬ Overtakes st node) (hb : b.validateStructure ≠ .ok ())

section
variable {v : Verifier} {now : Option UInt64} {st : ChainState} {b : Block}

theorem process_recorded (h : st.tree.isBlockInvalid (b.header.hash H) = true) :
    processBlockWithVerifier H v now st b = (st, .error (.cached (b.header.hash H))) := by
  simp only [processBlockWithVerifier, h, if_true]
  rfl

theorem process_parent_recorded (h : st.tree.isBlockInvalid (b.header.hash H) = false)
    (hp : st.tree.isBlockInvalid b.header.previousBlockHash = true) :
    (processBlockWithVerifier H v now st b).1 = { st with tree := st.tree.markBlockInvalid (b.header.hash H) } := by
  simp only [processBlockWithVerifier, h, hp, Bool.false_eq_true, if_false, if_true]

/-- A block turned away before its transactions are looked at leaves no trace. -/
theorem process_turnedAway (hp : st.tree.isBlockInvalid b.header.previousBlockHash = false)
    (h : ∀ parent pu, ¬ Examined H now st b parent pu) : (processBlockWithVerifier H v now st b).1 = st := by
  have o := process_outcome H v now st b
  generalize processBlockWithVerifier H v now st b = r at o
  cases o with
  | refused e he => rfl
  | known m hm => rfl
  | marked hs e he why =>
    cases why with
    | parent hun hp' =>
      rw [hp] at hp'
      cases hp'
    | block parent pu ex => exact absurd ex (h parent pu)
    | branch parent node pu adm => exact absurd adm.toExamined (h parent pu)
  | side parent node tip pu adm => exact absurd adm.toExamined (h parent pu)
  | deep parent node tip pu adm => exact absurd adm.toExamined (h parent pu)
  | switched parent node tip pu adm => exact absurd adm.toExamined (h parent pu)

theorem process_unencodable {parent : BlockNode} {pu : UtxoSet} (ex : Examined H now st b parent pu)
    (h : b.encodable = false) : (processBlockWithVerifier H v now st b).1 = st := by
  rw [process_examined ex]
  simp only [admitBlock, ex.state, ex.median, h, Bool.not_false, if_true]

theorem process_invalid {parent : BlockNode} {pu : UtxoSet} (ex : Examined H now st b parent pu)
    (henc : b.encodable = true) {e : ConsensusError} (h : validateBlockAuthoritativeWithHeaders H b (parent.height + 1) pu
      (st.tree.headersTo b.header.previousBlockHash) = .error e) :
    (processBlockWithVerifier H v now st b).1 = { st with tree := st.tree.markBlockInvalid (b.header.hash H) } := by
  rw [process_examined ex]
  simp only [admitBlock, ex.state, ex.median, henc, h, Bool.not_true, Bool.false_eq_true, if_false]

theorem process_overflow {parent : BlockNode} {pu : UtxoSet} (adm : Admitted H now st b parent pu)
    (h : newNode H parent b = none) : (processBlockWithVerifier H v now st b).1 = st := by
  obtain ⟨fees, hval⟩ := adm.valid
  rw [process_examined adm.toExamined]
  simp only [admitBlock, adm.state, adm.median, adm.encodable, hval, h, Bool.not_true, Bool.false_eq_true, if_false]

/-- A block that does not overtake the tip is stored beside it. -/
theorem process_aside (inv : TreeInv H genesis st.tree) {parent node : BlockNode} {pu : UtxoSet}
    (adm : Admitted H now st b parent pu) (hnode : newNode H parent b = some node) (h : ¬ Overtakes st node) :
    (processBlockWithVerifier H v now st b).1 = { st with tree := st.tree.insertNode node } := by
  obtain ⟨tip, htip⟩ := inv.tip
  obtain ⟨c, hfound, -, -, -⟩ := ChainTree.findCommonAncestor_spec inv.rooted htip (adm.isChild hnode).parent_stored
  rw [process_admitted adm hnode]
  simp only [forkChoice, htip]
  split
  · rfl
  · rename_i hgt
    have hlt : tip.cumulativeWork.val < node.cumulativeWork.val := by
      rw [CumulativeWork.le_iff] at hgt
      omega
    simp only [hfound, List.length_map]
    rw [if_pos]
    exact UInt64.not_le.mp fun hle => h ⟨tip, c, htip, hlt, hfound, hle⟩

/-- A block that overtakes the tip becomes the tip, or is recorded as invalid. -/
theorem process_overtakes (inv : StateInv H genesis st) {utxo : UtxoSet} {fees : UInt64}
    (hg : UtxoSet.applyBlock H UtxoSet.new genesis.transactions 0 = .ok (utxo, fees)) {parent node : BlockNode}
    {pu : UtxoSet} (adm : Admitted H now st b parent pu) (hnode : newNode H parent b = some node)
    (h : Overtakes st node) :
    (processBlockWithVerifier H v now st b).1.tree.isBlockInvalid (b.header.hash H) = true ∨
      (processBlockWithVerifier H v now st b).1.tree.canonicalTip = b.header.hash H ∧
        (processBlockWithVerifier H v now st b).1.tree.getNode (b.header.hash H) = some node := by
  obtain ⟨tip, ancestor, htip, hlt, hfound, hdepth⟩ := h
  have hle : node.cumulativeWork.le tip.cumulativeWork = false := by
    rw [← Bool.not_eq_true, CumulativeWork.le_iff]
    omega
  -- the state at the ancestor is there, since every stored path replays
  obtain ⟨staged, hbase⟩ : ∃ staged, st.tree.parentUtxo H st.utxo ancestor = .ok staged := by
    obtain ⟨c, hc, -, -, nc, hnc⟩ := ChainTree.findCommonAncestor_spec inv.tree.rooted htip
      (adm.isChild hnode).parent_stored
    rw [hfound] at hc
    cases hc
    obtain ⟨u, hu⟩ := inv.every_path_replays hg hnc
    unfold ChainTree.parentUtxo
    split
    · exact ⟨_, rfl⟩
    · exact ⟨u, hu⟩
  have hhash := (newNode_eq hnode).1
  rw [process_admitted adm hnode]
  simp only [forkChoice, htip, hle, hfound, List.length_map, UInt64.not_lt.mpr hdepth, hbase, Bool.false_eq_true, if_false]
  split
  · refine Or.inl ?_
    show ((st.tree.markBlockInvalid _).markBlockInvalid node.hash).isBlockInvalid _ = true
    rw [ChainTree.isBlockInvalid_mark, hhash]
    simp
  · refine Or.inr ⟨hhash, ?_⟩
    show (st.tree.insertNode node).getNode _ = some node
    rw [← hhash]
    exact ChainTree.getNode_insertNode_self _ _

/-- Only a block recorded as invalid gets that answer. -/
theorem recorded_of_cached (h : (processBlockWithVerifier H v now st b).2 = .error (.cached (b.header.hash H))) :
    st.tree.isBlockInvalid (b.header.hash H) = true := by
  have o := process_outcome H v now st b
  generalize processBlockWithVerifier H v now st b = r at o h
  cases o with
  | refused e he hc =>
    rcases hc with hc | hc
    · cases (Except.error.inj h) ▸ hc
    · exact hc.2
  | marked hs e he why hc =>
    rcases hc with hc | hc
    · cases (Except.error.inj h) ▸ hc
    · exact absurd (ChainError.invalidBranchBlock.inj ((Except.error.inj h).symm.trans hc)).2 (by decide)
  | known | side | deep | switched => cases h

/-- A new block that is not admitted is answered with an error, and moves nothing. -/
theorem process_not_admitted (hfresh : st.tree.getNode (b.header.hash H) = none)
    (h : ∀ parent pu, ¬ Admitted H now st b parent pu) :
    (∃ e, (processBlockWithVerifier H v now st b).2 = .error e) ∧
      (processBlockWithVerifier H v now st b).1.tree.canonicalTip = st.tree.canonicalTip := by
  have o := process_outcome H v now st b
  generalize processBlockWithVerifier H v now st b = r at o
  cases o with
  | refused e he => exact ⟨⟨e, rfl⟩, rfl⟩
  | known m hm =>
    rw [hfresh] at hm
    cases hm
  | marked hs e he why => exact ⟨⟨e, rfl⟩, ChainTree.markAll_tip hs _⟩
  | side parent node tip pu adm => exact absurd adm (h parent pu)
  | deep parent node tip pu adm => exact absurd adm (h parent pu)
  | switched parent node tip pu adm => exact absurd adm (h parent pu)

/-- A block already stored moves nothing. -/
theorem process_stored {n : BlockNode} (h : st.tree.getNode (b.header.hash H) = some n) :
    (processBlockWithVerifier H v now st b).1.tree.canonicalTip = st.tree.canonicalTip := by
  have o := process_outcome H v now st b
  generalize processBlockWithVerifier H v now st b = r at o
  have hstored : ∀ {parent pu}, ¬ Admitted H now st b parent pu := fun adm => by
    rw [adm.fresh] at h
    cases h
  cases o with
  | refused e he => rfl
  | known m hm => rfl
  | marked hs e he why => exact ChainTree.markAll_tip hs _
  | side parent node tip pu adm => exact absurd adm hstored
  | deep parent node tip pu adm => exact absurd adm hstored
  | switched parent node tip pu adm => exact absurd adm hstored

end

/-! ## The two runs -/

/-- Processing `b` after `other` gives the result, the tip and the set of processing it
    alone. -/
def SameAfter (H : Hasher) (v' v : Verifier) (now' now : Option UInt64) (st : ChainState) (other b : Block) : Prop :=
  let alone := processBlockWithVerifier H v now st b
  let after := processBlockWithVerifier H v now (processBlockWithVerifier H v' now' st other).1 b
  after.2 = alone.2 ∧ after.1.tree.canonicalTip = alone.1.tree.canonicalTip ∧ after.1.utxo = alone.1.utxo

section
variable {v' v : Verifier} {now' now : Option UInt64} {st : ChainState} {other b : Block}

theorem sameAfter_of_unchanged (h : (processBlockWithVerifier H v' now' st other).1 = st) :
    SameAfter H v' v now' now st other b := by
  simp only [SameAfter, h, and_self]

/-- Once the hash is recorded, `b` gets an answer it would not have got before. -/
theorem not_sameAfter_of_recorded (hheader : other.header = b.header)
    (hun : st.tree.isBlockInvalid (other.header.hash H) = false)
    (h : (processBlockWithVerifier H v' now' st other).1.tree.isBlockInvalid (other.header.hash H) = true) :
    ¬ SameAfter H v' v now' now st other b := by
  rw [hheader] at h hun
  rintro ⟨hres, -, -⟩
  rw [process_recorded h] at hres
  rw [recorded_of_cached hres.symm] at hun
  cases hun

/-- A body that passes the commitment check leaves none for the others. -/
theorem not_admitted_of_other (hheader : other.header = b.header) (hbody : other.transactions ≠ b.transactions)
    (hH : CollisionFree H (other.committedStrings H ++ b.committedStrings H))
    (so : ∀ t ∈ other.transactions, t.sized) (sb : ∀ t ∈ b.transactions, t.sized) {parent : BlockNode} {pu : UtxoSet}
    (adm : Admitted H now' st other parent pu) : ∀ parent pu, ¬ Admitted H now st b parent pu := by
  intro parent' pu' adm'
  obtain ⟨fees, hval⟩ := adm.valid
  obtain ⟨fees', hval'⟩ := adm'.valid
  have h1 := authoritative_commitment hval
  have h2 := authoritative_commitment hval'
  rw [hheader, h2] at h1
  exact hbody (commitment_inj hH adm.encodable adm'.encodable so sb h1.symm)

/-- The other body stored beside the tip: `b` is answered as a block already known. -/
theorem sameAfter_aside_iff (inv : TreeInv H genesis st.tree) (hheader : other.header = b.header) {parent node : BlockNode}
    {pu : UtxoSet} (adm : Admitted H now' st other parent pu) (hnode : newNode H parent other = some node)
    (hside : ¬ Overtakes st node) (hnot : ∀ parent pu, ¬ Admitted H now st b parent pu) :
    SameAfter H v' v now' now st other b ↔ b.validateStructure ≠ .ok () := by
  have hstate := process_aside (v := v') inv adm hnode hside
  have hun := adm.unmarked
  have hpun := adm.parent_unmarked
  have hfresh := adm.fresh
  rw [hheader] at hun hpun hfresh
  have hun' : (st.tree.insertNode node).isBlockInvalid (b.header.hash H) = false := hun
  have hpun' : (st.tree.insertNode node).isBlockInvalid b.header.previousBlockHash = false := hpun
  rw [SameAfter, hstate]
  constructor
  · rintro ⟨hres, -, -⟩ hok
    have hin : (st.tree.insertNode node).nodes.contains (b.header.hash H) = true := by
      refine (Table.contains_iff _ _).mpr ⟨node, ?_⟩
      rw [← hheader, ← (newNode_eq hnode).1]
      exact ChainTree.getNode_insertNode_self _ _
    obtain ⟨⟨e, he⟩, -⟩ := process_not_admitted (v := v) hfresh hnot
    rw [he] at hres
    simp only [processBlockWithVerifier, hun', hpun', hok, hin, Bool.false_eq_true, if_false, if_true] at hres
    cases hres
  · intro hbad
    cases hs : b.validateStructure with
    | ok u => exact absurd hs hbad
    | error e =>
      have h1 : processBlockWithVerifier H v now st b = (st, .error (.blockError e)) := by
        simp only [processBlockWithVerifier, hun, hpun, hs, Bool.false_eq_true, if_false]
      have h2 : processBlockWithVerifier H v now { st with tree := st.tree.insertNode node } b =
          ({ st with tree := st.tree.insertNode node }, .error (.blockError e)) := by
        simp only [processBlockWithVerifier, hun', hpun', hs, Bool.false_eq_true, if_false]
      rw [h1, h2]
      exact ⟨rfl, rfl, rfl⟩

/-- The other body in the tip's place: the tip is not where `b` alone would have left it. -/
theorem not_sameAfter_of_overtakes {utxo : UtxoSet} {fees : UInt64}
    (hg : UtxoSet.applyBlock H UtxoSet.new genesis.transactions 0 = .ok (utxo, fees)) (inv : StateInv H genesis st)
    (hheader : other.header = b.header) {parent node : BlockNode} {pu : UtxoSet} (adm : Admitted H now' st other parent pu)
    (hnode : newNode H parent other = some node) (hover : Overtakes st node)
    (hnot : ∀ parent pu, ¬ Admitted H now st b parent pu) : ¬ SameAfter H v' v now' now st other b := by
  rcases process_overtakes (v := v') inv hg adm hnode hover with hmark | ⟨htip, hstored⟩
  · exact not_sameAfter_of_recorded hheader adm.unmarked hmark
  · rintro ⟨-, hsame, -⟩
    have hfresh := adm.fresh
    rw [hheader] at htip hstored hfresh
    rw [process_stored hstored, htip, (process_not_admitted hfresh hnot).2] at hsame
    obtain ⟨n, hn⟩ := inv.tree.tip
    rw [← hsame, hfresh] at hn
    cases hn

/-- From every reachable state, for every two blocks of one header and two bodies, at any
    clocks and with any verifiers: after the one, the other fares as if it had come alone
    exactly in the harmless cases. -/
theorem unpoisoned_iff {utxo : UtxoSet} {fees : UInt64}
    (hg : UtxoSet.applyBlock H UtxoSet.new genesis.transactions 0 = .ok (utxo, fees))
    (hr : Reach H anyResult ⟨ChainTree.new H genesis, utxo⟩ st) (hheader : other.header = b.header)
    (hbody : other.transactions ≠ b.transactions)
    (hH : CollisionFree H (other.committedStrings H ++ b.committedStrings H))
    (so : ∀ t ∈ other.transactions, t.sized) (sb : ∀ t ∈ b.transactions, t.sized) :
    SameAfter H v' v now' now st other b ↔ Harmless H now' st other b := by
  have inv := reach_stateInv hg hr
  constructor
  · intro hsame
    by_cases hun : st.tree.isBlockInvalid (other.header.hash H) = true
    · exact .recorded hun
    · have hun : st.tree.isBlockInvalid (other.header.hash H) = false := Bool.eq_false_of_not_eq_true hun
      -- a recorded hash would show in the answer to `b`
      have hclean : ¬ (processBlockWithVerifier H v' now' st other).1.tree.isBlockInvalid (other.header.hash H) = true :=
        fun h => not_sameAfter_of_recorded hheader hun h hsame
      have hmarked : ∀ {t : ChainTree}, (t.markBlockInvalid (other.header.hash H)).isBlockInvalid
          (other.header.hash H) = true := by
        intro t
        rw [ChainTree.isBlockInvalid_mark]
        simp
      cases hp : st.tree.isBlockInvalid other.header.previousBlockHash with
      | true => exact absurd (by rw [process_parent_recorded hun hp]; exact hmarked) hclean
      | false =>
        by_cases hex : ∃ parent pu, Examined H now' st other parent pu
        · obtain ⟨parent, pu, ex⟩ := hex
          cases henc : other.encodable with
          | false => exact .unencodable hp henc
          | true =>
            cases hval : validateBlockAuthoritativeWithHeaders H other (parent.height + 1) pu
                (st.tree.headersTo other.header.previousBlockHash) with
            | error e => exact absurd (by rw [process_invalid ex henc hval]; exact hmarked) hclean
            | ok f =>
              have adm : Admitted H now' st other parent pu := ⟨ex, henc, f, hval⟩
              have hnot : ∀ parent pu, ¬ Admitted H now st b parent pu := not_admitted_of_other hheader hbody hH so sb adm
              cases hnode : newNode H parent other with
              | none => exact .overflow parent pu adm hnode
              | some node =>
                by_cases hover : Overtakes st node
                · exact absurd hsame (not_sameAfter_of_overtakes hg inv hheader adm hnode hover hnot)
                · exact .aside parent node pu adm hnode hover
                    ((sameAfter_aside_iff inv.tree hheader adm hnode hover hnot).mp hsame)
        · exact .turnedAway hp fun parent pu ex => hex ⟨parent, pu, ex⟩
  · intro h
    cases h with
    | recorded h => exact sameAfter_of_unchanged (by rw [process_recorded h])
    | turnedAway hp h => exact sameAfter_of_unchanged (process_turnedAway hp h)
    | unencodable hp h =>
      by_cases hex : ∃ parent pu, Examined H now' st other parent pu
      · obtain ⟨parent, pu, ex⟩ := hex
        exact sameAfter_of_unchanged (process_unencodable ex h)
      · exact sameAfter_of_unchanged (process_turnedAway hp fun parent pu ex => hex ⟨parent, pu, ex⟩)
    | overflow parent pu adm h => exact sameAfter_of_unchanged (process_overflow adm h)
    | aside parent node pu adm hnode hside hb =>
      have hnot : ∀ parent pu, ¬ Admitted H now st b parent pu := not_admitted_of_other hheader hbody hH so sb adm
      exact (sameAfter_aside_iff inv.tree hheader adm hnode hside hnot).mpr hb

end

/-- The header of the sample block without a body. -/
def emptied (H : Hasher) : Block := ⟨(sampleBlock H).header, []⟩

theorem emptied_turnedAway (H : Hasher) (now : Option UInt64) : Harmless H now (sampleStart H) (emptied H) (sampleBlock H) := by
  refine .turnedAway ((Table.not_contains_iff _ _).mpr (Table.get_empty _)) fun _ _ ex => ?_
  have hempty : (emptied H).validateStructure = .error .emptyTransactionVector := rfl
  have := ex.structured
  rw [hempty] at this
  cases this

theorem sampleStart_reached (H : Hasher) : Reach H anyResult ⟨ChainTree.new H sampleGenesis, UtxoSet.new⟩ (sampleStart H) :=
  .start

set_option maxRecDepth 10000 in
theorem unpoisoned_by_empty_body : SameAfter Blake3.digest (authoritativeTransactionVerifier Blake3.digest)
    (authoritativeTransactionVerifier Blake3.digest) (some 1000) (some 1000) (sampleStart Blake3.digest)
    (emptied Blake3.digest) (sampleBlock Blake3.digest) := by
  have hheader : (emptied Blake3.digest).header = (sampleBlock Blake3.digest).header := rfl
  have hbody : (emptied Blake3.digest).transactions ≠ (sampleBlock Blake3.digest).transactions :=
    (List.cons_ne_nil sampleCoinbase []).symm
  have hcollision : CollisionFree Blake3.digest ((emptied Blake3.digest).committedStrings Blake3.digest ++
      (sampleBlock Blake3.digest).committedStrings Blake3.digest) := by decide +kernel
  have hnone : ∀ t ∈ (emptied Blake3.digest).transactions, t.sized := by simp [emptied]
  have hsized : ∀ t ∈ (sampleBlock Blake3.digest).transactions, t.sized := by decide +kernel
  exact (unpoisoned_iff (sampleGenesis_applies _) (sampleStart_reached _) hheader hbody hcollision hnone hsized).mpr
    (emptied_turnedAway _ _)

set_option maxRecDepth 10000 in
/-- The sample block is accepted alone, and refused after its header came with the body of
    another block. -/
theorem poisoned_by_other_body :
    let H := Blake3.digest
    let v := authoritativeTransactionVerifier H
    let other : Block := ⟨(sampleBlock H).header, (spendingBlock H).transactions⟩
    let poisoned := (processBlockWithVerifier H v (some 1000) (sampleStart H) other).1
    (processBlockWithVerifier H v (some 1000) (sampleStart H) (sampleBlock H)).2.toOption.isSome = true ∧
      (processBlockWithVerifier H v (some 1000) poisoned (sampleBlock H)).2 =
        .error (.cached ((sampleBlock H).header.hash H)) ∧
      ¬ SameAfter H v v (some 1000) (some 1000) (sampleStart H) other (sampleBlock H) := by
  intro H v other poisoned
  have h1 : (processBlockWithVerifier H v (some 1000) (sampleStart H) (sampleBlock H)).2.toOption.isSome = true := by
    decide +kernel
  have h2 : (processBlockWithVerifier H v (some 1000) poisoned (sampleBlock H)).2 =
      .error (.cached ((sampleBlock H).header.hash H)) := by
    decide +kernel
  refine ⟨h1, h2, ?_⟩
  rintro ⟨hres, -, -⟩
  rw [← hres, h2] at h1
  cases h1

end Scytale
