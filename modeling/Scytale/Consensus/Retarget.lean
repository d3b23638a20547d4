/-
  Scytale.Consensus.Retarget — when a block at an epoch boundary can be extended.

  The expected target at a boundary is an arbitrary 256-bit quotient, and a header names
  its target in a compact field with a 23-bit mantissa; `validate_block_target` compares
  the two for equality, without rounding the quotient to what a field can say.
  - `boundary_target`: the target expected at a boundary, in every reachable tree. Its
    history is always there, and time has always passed.
  - `extendable_iff`: some field passes the target check exactly when the quotient is
    within the maximum and a mantissa times a power of 256.
  - `stuck_at_first_boundary`: a chain at the largest target that nothing extends beyond
    height 1439, whatever the digest.
-/
import Scytale.Consensus.Replay
import Scytale.Core.TxIdentity

namespace Scytale

open Lib

variable {H : Hasher} {genesis : Block} {t : ChainTree}

namespace TreeInv

theorem path_length (h : TreeInv H genesis t) {k : Hash256} {n : BlockNode} (hk : t.getNode k = some n) :
    (t.getPathFromGenesis k).length = n.height.toNat + 1 := by
  rw [ChainTree.getPathFromGenesis, List.length_reverse, List.length_map]
  exact Ancestry.chain_length h.rooted hk

/-- Every block before the last of a path is earlier than it. -/
theorem path_earlier (h : TreeInv H genesis t) {k : Hash256} {n : BlockNode} (hk : t.getNode k = some n) :
    ∃ before, t.getPathFromGenesis k = before ++ [n] ∧
      ∀ m ∈ before, m.block.header.timestamp < n.block.header.timestamp := by
  suffices hs : ∀ n, t.getNode k = some n → ∃ before, t.getPathFromGenesis k = before ++ [n] ∧
      ∀ m ∈ before, m.block.header.timestamp < n.block.header.timestamp from hs n hk
  refine h.rooted.induction (P := fun k => ∀ n, t.getNode k = some n → ∃ before,
    t.getPathFromGenesis k = before ++ [n] ∧ ∀ m ∈ before, m.block.header.timestamp < n.block.header.timestamp) ?_ ?_ hk
  · intro n hn
    exact ⟨[], ChainTree.path_root h.rooted hn, by simp⟩
  · intro k n hk hr ih m hm
    rw [hk] at hm
    cases hm
    obtain ⟨-, p, hc⟩ := h.child hk hr
    obtain ⟨before, hpath, hearlier⟩ := ih p hc.parent_stored
    refine ⟨before ++ [p], by rw [ChainTree.path_child h.rooted hk hr, hpath], ?_⟩
    intro m hm
    rcases List.mem_append.mp hm with hm | hm
    · exact UInt64.lt_trans (hearlier m hm) hc.later
    · rw [List.mem_singleton.mp hm]
      exact hc.later

end TreeInv

/-- The next height is a multiple of the adjustment interval. -/
def AtBoundary (n : BlockNode) : Prop := 1440 ∣ n.height.toNat + 1

/-- Where the epoch that ends in the last block of a path is timed from: the block before
    its first one, or the genesis block in the first epoch. -/
def epochStart (path : List BlockNode) : Option BlockNode := path[path.length - 1441]?

/-- The quotient retargeting computes from a parent and the start of its epoch. -/
def retargetQuotient (first parent : BlockNode) : Nat :=
  (Target.fromCompact parent.block.header.difficultyTarget).val *
    clampedTime first.block.header.timestamp.toNat parent.block.header.timestamp.toNat / 86400

/-- Off the boundaries the expected target is the parent's. -/
theorem inner_target (path : List BlockNode) {n : BlockNode} (hb : ¬AtBoundary n) :
    expectedTarget path n = .ok (Target.fromCompact n.block.header.difficultyTarget) := by
  have h1440 : defaultDifficultyEpochBlocks.toNat = 1440 := rfl
  have hzero : (0 : UInt64).toNat = 0 := rfl
  simp only [expectedTarget]
  rw [if_neg]
  rintro ⟨hge, hmod⟩
  have hle := UInt64.le_iff_toNat_le.mp hge
  -- not wrapped, since it is at least an epoch
  have hheight : (n.height + 1).toNat = n.height.toNat + 1 := by
    have hlt := n.height.toNat_lt
    have hsum : (n.height + 1).toNat = (n.height.toNat + 1) % 2 ^ 64 := by
      rw [UInt64.toNat_add]
      rfl
    rw [hsum, h1440] at hle
    rw [hsum]
    refine Nat.mod_eq_of_lt (Nat.lt_of_le_of_ne hlt fun e => ?_)
    rw [e, Nat.mod_self] at hle
    omega
  have hmod := congrArg UInt64.toNat hmod
  rw [UInt64.toNat_mod, hheight, h1440, hzero] at hmod
  exact hb (Nat.dvd_of_mod_eq_zero hmod)

/-- The target expected at a boundary. -/
theorem TreeInv.boundary_target (h : TreeInv H genesis t) {k : Hash256} {n : BlockNode} (hk : t.getNode k = some n)
    (hb : AtBoundary n) : ∃ first T, epochStart (t.getPathFromGenesis k) = some first ∧
      expectedTarget (t.getPathFromGenesis k) n = .ok T ∧ T.val = min (retargetQuotient first n) maxRetarget := by
  obtain ⟨j, hj⟩ := hb
  have hlen := h.path_length hk
  obtain ⟨before, hpath, hearlier⟩ := h.path_earlier hk
  have hbefore : before.length = n.height.toNat := by
    rw [hpath] at hlen
    simpa using hlen
  -- the epoch starts before its last block
  have hidx : (t.getPathFromGenesis k).length - 1441 < before.length := by omega
  have hget : epochStart (t.getPathFromGenesis k) = some before[(t.getPathFromGenesis k).length - 1441] := by
    rw [epochStart]
    nth_rewrite 1 [hpath]
    rw [List.getElem?_append_left hidx, List.getElem?_eq_getElem hidx]
  have hlt := hearlier _ (List.getElem_mem hidx)
  obtain ⟨T, hT, hval⟩ := nextTarget_val (Target.fromCompact n.block.header.difficultyTarget) hlt
  refine ⟨_, T, hget, ?_, hval⟩
  have hheight : (n.height + 1).toNat = n.height.toNat + 1 := by
    have h1 := h.low hk
    have h2 := n.height.toNat_lt
    have hone : (1 : UInt64).toNat = 1 := rfl
    rw [UInt64.toNat_add, hone, Nat.mod_eq_of_lt]
    omega
  have h1440 : defaultDifficultyEpochBlocks.toNat = 1440 := rfl
  have hge : n.height + 1 ≥ defaultDifficultyEpochBlocks ∧ (n.height + 1) % defaultDifficultyEpochBlocks = 0 := by
    refine ⟨UInt64.le_iff_toNat_le.mpr (by omega), UInt64.toNat_inj.mp ?_⟩
    rw [UInt64.toNat_mod, hheight, h1440, hj]
    exact Nat.mul_mod_right _ _
  rw [epochStart] at hget
  simp only [expectedTarget]
  rw [if_pos hge, h1440, hget]
  simp only [hT]

/-- Some header on top of the block passes the target check. -/
def Extendable (t : ChainTree) (k : Hash256) (n : BlockNode) : Prop :=
  ∃ (header : BlockHeader) (T : Target), header.previousBlockHash = k ∧
    checkTarget (t.getPathFromGenesis k) n header = .ok T

/-- A header can name exactly the targets of this form. -/
theorem extendable_of_target {k : Hash256} {n : BlockNode} {T : Target}
    (hT : expectedTarget (t.getPathFromGenesis k) n = .ok T) : Extendable t k n ↔ Target.Nameable T.val := by
  rw [← Target.fromCompact_surj_iff]
  constructor
  · rintro ⟨header, T', -, hc⟩
    rw [checkTarget, hT] at hc
    simp only at hc
    split at hc
    · cases hc
    · rename_i hv
      exact ⟨header.difficultyTarget, validateBlockTarget_ok.mp hv⟩
  · rintro ⟨c, hc⟩
    refine ⟨⟨1, k, Hash256.zero, Hash256.zero, 0, c, 0⟩, T, rfl, ?_⟩
    have hv : validateBlockTarget ⟨1, k, Hash256.zero, Hash256.zero, 0, c, 0⟩ T = .ok () := validateBlockTarget_ok.mpr hc
    simp only [checkTarget, hT, hv]

/-- A quotient the compact field can say. -/
def Representable (q : Nat) : Prop := q ≤ maxRetarget ∧ ∃ k ≤ 29, 256 ^ k ∣ q ∧ q < 2 ^ 23 * 256 ^ k

/-- The cap itself is not nameable: its mantissa has 236 bits. -/
theorem maxRetarget_not_nameable : ¬ Target.Nameable maxRetarget := by
  rintro (h | ⟨k, -, hdvd, hlt⟩)
  · exact absurd h (by decide)
  · cases k with
    | zero => exact absurd hlt (by decide)
    | succ k =>
      have h2 : 2 ∣ maxRetarget := Dvd.dvd.trans ⟨128 * 256 ^ k, by rw [pow_succ]; omega⟩ hdvd
      exact absurd h2 (by decide)

theorem nameable_capped_iff (q : Nat) : Target.Nameable (min q maxRetarget) ↔ Representable q := by
  by_cases hq : q < maxRetarget
  · rw [Nat.min_eq_left (Nat.le_of_lt hq)]
    constructor
    · rintro (h | h)
      · exact absurd (h ▸ hq) (by decide)
      · exact ⟨Nat.le_of_lt hq, h⟩
    · exact fun h => Or.inr h.2
  · have hge := Nat.le_of_not_lt hq
    rw [Nat.min_eq_right hge]
    refine iff_of_false maxRetarget_not_nameable fun h => ?_
    have he : q = maxRetarget := Nat.le_antisymm h.1 hge
    exact maxRetarget_not_nameable (he ▸ Or.inr h.2)

/-- In every reachable tree a block at an epoch boundary has a child that passes the target
    check exactly when the quotient is representable. -/
theorem extendable_iff {utxo : UtxoSet} {st : ChainState} (hr : Reach H anyResult ⟨ChainTree.new H genesis, utxo⟩ st)
    {k : Hash256} {n : BlockNode} (hk : st.tree.getNode k = some n) (hb : AtBoundary n) :
    ∃ first, epochStart (st.tree.getPathFromGenesis k) = some first ∧
      (Extendable st.tree k n ↔ Representable (retargetQuotient first n)) := by
  obtain ⟨first, T, hfirst, hT, hval⟩ := (reach_treeInv hr).boundary_target hk hb
  refine ⟨first, hfirst, ?_⟩
  rw [extendable_of_target hT, hval, nameable_capped_iff]

/-! ## A chain that stops

Blocks that pay nothing, a minute apart, on a first block of the largest target there is.
The first retarget caps it, and the cap is no target a header can name. -/

theorem getD_le {l : List UInt64} {bound : UInt64} (h : ∀ x ∈ l, x ≤ bound) (i : Nat) : l.getD i 0 ≤ bound := by
  rw [List.getD_eq_getElem?_getD]
  cases hg : l[i]? with
  | none => exact UInt64.zero_le
  | some x => exact h x (List.mem_of_getElem? hg)

/-- Headers none of which is later have no later median. -/
theorem checkMedianTime_of_later {headers : List BlockHeader} {header : BlockHeader}
    (h : ∀ x ∈ headers, x.timestamp ≤ header.timestamp) : checkMedianTime headers header = .ok () := by
  rw [checkMedianTime, if_neg]
  rintro ⟨-, hlt⟩
  refine absurd hlt (UInt64.not_lt.mpr ?_)
  simp only [calculateMedianTimePast]
  split
  · exact UInt64.zero_le
  · refine getD_le (fun ts hts => ?_) _
    obtain ⟨x, hx, rfl⟩ := List.mem_map.mp ((List.perm_insertionSort _ _).mem_iff.mp hts)
    exact h x (List.mem_of_mem_take (List.mem_of_mem_drop hx))

/-- A header later than a stored block is later than the median of its path. -/
theorem TreeInv.median_of_later (h : TreeInv H genesis t) {k : Hash256} {n : BlockNode} (hk : t.getNode k = some n)
    {header : BlockHeader} (hlater : n.block.header.timestamp < header.timestamp) :
    checkMedianTime (t.headersTo k) header = .ok () := by
  refine checkMedianTime_of_later fun x hx => ?_
  obtain ⟨m, hm, rfl⟩ := List.mem_map.mp hx
  obtain ⟨before, hpath, hearlier⟩ := h.path_earlier hk
  rw [hpath] at hm
  rcases List.mem_append.mp hm with hm | hm
  · exact UInt64.le_of_lt (UInt64.lt_trans (hearlier m hm) hlater)
  · rw [List.mem_singleton.mp hm]
    exact UInt64.le_of_lt hlater

def idleCoinbase : Transaction := Transaction.newCoinbase 0 [⟨0, [0x6a]⟩]

/-- The chain on a first block that leaves `u`. -/
def idleOn (H : Hasher) (first : Block) (u : UtxoSet) : Nat → Block
  | 0 => first
  | i + 1 => mined H ((idleOn H first u i).header.hash H) u (UInt64.ofNat (i + 1)) (UInt64.ofNat (60 * (i + 1)))
      [idleCoinbase]

/-- The first block has the largest target, and the epoch for its time. -/
structure IdleFirst (first : Block) : Prop where
  bits : first.header.difficultyTarget = easyBits
  timestamp : first.header.timestamp = 0

/-- The chain has been processed up to its `i`th block. -/
structure Idle (H : Hasher) (first : Block) (u : UtxoSet) (i : Nat) (st : ChainState) (n : BlockNode) : Prop where
  tree : TreeInv H first st.tree
  utxo : st.utxo = u
  stored : st.tree.getNode st.tree.canonicalTip = some n
  tip : st.tree.canonicalTip = (idleOn H first u i).header.hash H
  block : n.block = idleOn H first u i
  height : n.height.toNat = i
  work : n.cumulativeWork.val = i + 1
  only : ∀ {k m}, st.tree.getNode k = some m → ∃ j ≤ i, k = (idleOn H first u j).header.hash H
  unmarked : ∀ k, st.tree.isBlockInvalid k = false

theorem idle_start (H : Hasher) {first : Block} (hf : IdleFirst first) (u : UtxoSet) (depth : UInt64) :
    Idle H first u 0 ⟨(ChainTree.new H first).withMaxReorgDepth depth, u⟩ (genesisNode H first) where
  tree := (treeInv_new H first).congr rfl rfl
  utxo := rfl
  stored := (treeInv_new H first).root
  tip := rfl
  block := rfl
  height := rfl
  work := by
    show (blockWork (Target.fromCompact first.header.difficultyTarget)).val = 1
    rw [hf.bits]
    decide
  only := by
    intro k m hk
    exact ⟨0, Nat.le_refl _, ChainTree.eq_genesis_of_new hk⟩
  unmarked := fun k => (Table.not_contains_iff _ _).mpr (Table.get_empty k)

section
variable (H : Hasher) {first : Block} (u : UtxoSet)

theorem idle_timestamp (hf : IdleFirst first) : ∀ i, (idleOn H first u i).header.timestamp = UInt64.ofNat (60 * i)
  | 0 => hf.timestamp
  | _ + 1 => rfl

theorem idle_bits (hf : IdleFirst first) : ∀ i, (idleOn H first u i).header.difficultyTarget = easyBits
  | 0 => hf.bits
  | _ + 1 => rfl

theorem idle_toNat {i : Nat} (hi : i ≤ 1440) : (UInt64.ofNat (60 * i)).toNat = 60 * i := by
  rw [UInt64.toNat_ofNat', Nat.mod_eq_of_lt]
  omega

theorem idle_later (hf : IdleFirst first) {i : Nat} (hi : i < 1440) :
    (idleOn H first u i).header.timestamp < (idleOn H first u (i + 1)).header.timestamp := by
  rw [idle_timestamp H u hf, idle_timestamp H u hf, UInt64.lt_iff_toNat_lt, idle_toNat (by omega), idle_toNat (by omega)]
  omega

/-- Every digest is below the largest target. -/
theorem verifyPow_max (header : BlockHeader) : verifyPow H header Target.max = .ok () := by
  have hlt := byteVal_lt (header.hash H).bytes
  have hp : (256 : Nat) ^ 32 = 2 ^ 256 := by decide
  rw [(header.hash H).size, hp] at hlt
  have : Target.max.isMetBy (header.hash H) = true := by
    rw [Target.isMetBy_iff, Target.max_val]
    omega
  rw [verifyPow, this]
  rfl

theorem idle_authoritative (i : Nat) (height : UInt64) (headers : List BlockHeader) :
    validateBlockAuthoritativeWithHeaders H (idleOn H first u (i + 1)) height u headers = .ok 0 := by
  have hstruct : (idleOn H first u (i + 1)).validateStructure = .ok () := rfl
  have hcommit : (idleOn H first u (i + 1)).header.transactionCommitment =
      transactionCommitment H (idleOn H first u (i + 1)) := rfl
  have hlock : validateLockTimes height (calculateMedianTimePast headers headers.length)
      (idleOn H first u (i + 1)).transactions.tail = .ok () := rfl
  have happly : UtxoSet.applyBlock H u (idleOn H first u (i + 1)).transactions height = .ok (u, 0) := rfl
  have hreward : checkReward (idleOn H first u (i + 1)) height 0 = .ok 0 := by
    have hout : ((idleOn H first u (i + 1)).transactions.headD ⟨0, [], [], 0⟩).totalOutputQuanta = .ok 0 := rfl
    have hsum : checkedAdd (getBlockSubsidy height) 0 = some (getBlockSubsidy height + 0) :=
      checkedAdd_of_lt (getBlockSubsidy height).toNat_lt
    simp only [checkReward, hout, hsum]
    rw [if_neg (UInt64.not_lt.mpr UInt64.zero_le)]
  simp only [validateBlockAuthoritativeWithHeaders, hstruct, hcommit, hlock, happly, hreward, ne_eq, not_true_eq_false,
    if_false]

theorem idle_connects {v : Verifier} (i : Nat) (hv : v (idleOn H first u (i + 1)) u = .ok ()) {n : BlockNode}
    (hn : n.block = idleOn H first u (i + 1)) (headers : List BlockHeader) : connectNode H headers v u n = .ok u := by
  have hreplay : replay H u [n] = .ok u := replay_one.mpr ⟨0, by rw [hn]; rfl⟩
  have hroot : (idleOn H first u (i + 1)).header.utxoRoot = u.computeUtxoRoot H := rfl
  simp only [connectNode, hn, idle_authoritative, hv, hreplay, hroot, ne_eq, not_true_eq_false, if_false]

end

section
variable {first : Block} {u : UtxoSet} {i : Nat} {st : ChainState} {n : BlockNode}

/-- Before the first boundary the next block of the chain passes its header checks. -/
theorem Idle.header (hf : IdleFirst first) (h : Idle H first u i st n) (hi : i + 1 < 1440) :
    checkHeader H (st.tree.getPathFromGenesis st.tree.canonicalTip) n (idleOn H first u (i + 1)).header
      (some (idleOn H first u (i + 1)).header.timestamp) = .ok () := by
  have hmax : Target.fromCompact easyBits = Target.max := by decide
  have hlow : ¬ (n.height + 1 ≥ defaultDifficultyEpochBlocks ∧ (n.height + 1) % defaultDifficultyEpochBlocks = 0) := by
    rintro ⟨hge, -⟩
    have h1 := UInt64.le_iff_toNat_le.mp hge
    have h2 : defaultDifficultyEpochBlocks.toNat = 1440 := rfl
    have h3 : (1 : UInt64).toNat = 1 := rfl
    rw [UInt64.toNat_add, h.height, h2, h3, Nat.mod_eq_of_lt (by omega)] at h1
    omega
  have hexp : expectedTarget (st.tree.getPathFromGenesis st.tree.canonicalTip) n = .ok Target.max := by
    simp only [expectedTarget]
    rw [if_neg hlow, h.block, idle_bits H u hf, hmax]
  have hval : validateBlockTarget (idleOn H first u (i + 1)).header Target.max = .ok () :=
    validateBlockTarget_ok.mpr (by rw [idle_bits H u hf, hmax])
  have hlater : ¬ (idleOn H first u (i + 1)).header.timestamp ≤ n.block.header.timestamp := by
    rw [h.block]
    exact UInt64.not_le.mpr (idle_later H u hf (by omega))
  have hnow : ¬ (idleOn H first u (i + 1)).header.timestamp.toNat >
      min ((idleOn H first u (i + 1)).header.timestamp.toNat + maxFutureDrift.toNat) (2 ^ 64 - 1) := by
    have := (idleOn H first u (i + 1)).header.timestamp.toNat_lt
    omega
  simp only [checkHeader, checkTarget, hexp, hval, verifyPow_max, if_neg hlater, if_neg hnow]

theorem Idle.admitted (hf : IdleFirst first) (h : Idle H first u i st n) (hi : i + 1 < 1440)
    (hfresh : ∀ j ≤ i, (idleOn H first u (i + 1)).header.hash H ≠ (idleOn H first u j).header.hash H) :
    Admitted H (some (idleOn H first u (i + 1)).header.timestamp) st (idleOn H first u (i + 1)) n u := by
  have hprev : (idleOn H first u (i + 1)).header.previousBlockHash = st.tree.canonicalTip := h.tip.symm
  refine ⟨⟨h.unmarked _, h.unmarked _, rfl, ?_, ?_, ?_, ?_, ?_⟩, rfl, 0, idle_authoritative H u i _ _⟩
  · cases hg : st.tree.getNode ((idleOn H first u (i + 1)).header.hash H) with
    | none => rfl
    | some m =>
      obtain ⟨j, hj, e⟩ := h.only hg
      exact absurd e (hfresh j hj)
  · rw [hprev]
    exact h.stored
  · rw [hprev]
    exact h.header hf hi
  · rw [hprev, ChainTree.parentUtxo, if_pos rfl, h.utxo]
  · have hlater := idle_later H u hf (i := i) (by omega)
    rw [hprev]
    exact h.tree.median_of_later h.stored (by rw [h.block]; exact hlater)

/-- One more block, under any verifier that takes it. -/
theorem Idle.step (hf : IdleFirst first) (h : Idle H first u i st n) (hi : i + 1 < 1440)
    (hfresh : ∀ j ≤ i, (idleOn H first u (i + 1)).header.hash H ≠ (idleOn H first u j).header.hash H) {v : Verifier}
    (hv : v (idleOn H first u (i + 1)) u = .ok ()) : ∃ st' n' r, processBlockWithVerifier H v
        (some (idleOn H first u (i + 1)).header.timestamp) st (idleOn H first u (i + 1)) = (st', .ok (some r)) ∧
      r.disconnectedBlocks = [] ∧ Idle H first u (i + 1) st' n' := by
  have adm := h.admitted hf hi hfresh
  have hone : (blockWork (Target.fromCompact (idleOn H first u (i + 1)).header.difficultyTarget)).val = 1 := by
    rw [idle_bits H u hf]
    decide
  -- the work is far from the 256 bits
  obtain ⟨node, hnode⟩ : ∃ node, newNode H n (idleOn H first u (i + 1)) = some node := by
    simp only [newNode]
    cases hadd : n.cumulativeWork.checkedAdd
        (blockWork (Target.fromCompact (idleOn H first u (i + 1)).header.difficultyTarget)) with
    | none =>
      have := CumulativeWork.checkedAdd_eq_none hadd
      rw [h.work, hone] at this
      omega
    | some w => exact ⟨_, rfl⟩
  obtain ⟨hhash, hprev, hheight, hblock, hwork, hcum⟩ := newNode_eq hnode
  have hcum : node.cumulativeWork.val = i + 1 + 1 := by rw [hcum, hwork, hone, h.work]
  have htip : node.parentHash = st.tree.canonicalTip := hprev.trans h.tip.symm
  have hconn : connectNode H (st.tree.headersTo node.parentHash) v st.utxo node = .ok u := by
    rw [h.utxo]
    exact idle_connects H u i hv hblock _
  have hproc := process_extends adm hnode htip h.stored (by rw [h.work, hcum]; omega) hconn
  have htree := (process_outcome H v (some (idleOn H first u (i + 1)).header.timestamp) st
    (idleOn H first u (i + 1))).treeInv h.tree
  rw [hproc] at htree
  refine ⟨_, node, _, hproc, rfl, htree, rfl, ChainTree.getNode_insertNode_self _ _, hhash, hblock, ?_, hcum, ?_,
    h.unmarked⟩
  · have hone : (1 : UInt64).toNat = 1 := rfl
    rw [hheight, UInt64.toNat_add, h.height, hone, Nat.mod_eq_of_lt (by omega)]
  · intro k m hk
    change (st.tree.insertNode node).getNode k = some m at hk
    rw [ChainTree.getNode_insertNode] at hk
    split at hk
    · rename_i e
      exact ⟨i + 1, Nat.le_refl _, by rw [← e, hhash]⟩
    · obtain ⟨j, hj, e⟩ := h.only hk
      exact ⟨j, by omega, e⟩

end

/-- The headers of the chain on a first block, as they are hashed. -/
def idleHeadersOn (H : Hasher) (first : Block) (u : UtxoSet) : List Bytes :=
  (List.range 1440).map fun i => (idleOn H first u i).header.canonicalBytes

theorem header_timestamp_inj {a b : BlockHeader} (h : a.canonicalBytes = b.canonicalBytes) : a.timestamp = b.timestamp := by
  simp only [BlockHeader.canonicalBytes, List.append_assoc] at h
  obtain ⟨-, h⟩ := List.append_inj h (by simp)
  obtain ⟨-, h⟩ := List.append_inj h (by rw [a.previousBlockHash.size, b.previousBlockHash.size])
  obtain ⟨-, h⟩ := List.append_inj h (by rw [a.transactionCommitment.size, b.transactionCommitment.size])
  obtain ⟨-, h⟩ := List.append_inj h (by rw [a.utxoRoot.size, b.utxoRoot.size])
  exact u64le_inj (List.append_inj h (by simp)).1

/-- The blocks of the chain have different times, so different headers. -/
theorem idle_hash_ne {first : Block} {u : UtxoSet} (hf : IdleFirst first)
    (hH : CollisionFree H (idleHeadersOn H first u)) {i j : Nat} (hi : i < 1440) (hj : j < 1440) (hne : i ≠ j) :
    (idleOn H first u i).header.hash H ≠ (idleOn H first u j).header.hash H := by
  intro e
  have hmem : ∀ {k}, k < 1440 → (idleOn H first u k).header.canonicalBytes ∈ idleHeadersOn H first u := fun hk =>
    List.mem_map.mpr ⟨_, List.mem_range.mpr hk, rfl⟩
  have := header_timestamp_inj (hH _ (hmem hi) _ (hmem hj) e)
  rw [idle_timestamp H u hf, idle_timestamp H u hf, ← UInt64.toNat_inj, idle_toNat (by omega),
    idle_toNat (by omega)] at this
  omega

/-- The chain on the sample genesis block. -/
def idleBlock (H : Hasher) : Nat → Block := idleOn H sampleGenesis UtxoSet.new

/-- Its headers, as they are hashed. -/
def idleHeaders (H : Hasher) : List Bytes := (List.range 1440).map fun i => (idleBlock H i).header.canonicalBytes

theorem sampleGenesis_idle : IdleFirst sampleGenesis := ⟨rfl, rfl⟩

theorem idle_reached (hH : CollisionFree H (idleHeaders H)) : ∀ {i : Nat}, i < 1440 →
    ∃ st n, Reach H anyResult (sampleStart H) st ∧ Idle H sampleGenesis UtxoSet.new i st n := by
  intro i
  induction i with
  | zero => intro _; exact ⟨_, _, .start, idle_start H sampleGenesis_idle UtxoSet.new defaultMaxReorgDepth⟩
  | succ i ih =>
    intro hi
    obtain ⟨st, n, hr, h⟩ := ih (by omega)
    have hv : authoritativeTransactionVerifier H (idleOn H sampleGenesis UtxoSet.new (i + 1)) UtxoSet.new = .ok () := by
      have : validateBlockAuthoritativeWithHeaders H (idleOn H sampleGenesis UtxoSet.new (i + 1))
          (coinbaseHeight (idleOn H sampleGenesis UtxoSet.new (i + 1))) UtxoSet.new [] = .ok 0 :=
        idle_authoritative H UtxoSet.new i _ _
      simp only [authoritativeTransactionVerifier, validateBlockAuthoritative, this]
    obtain ⟨st', n', r, hproc, -, h'⟩ := h.step sampleGenesis_idle hi
      (fun j hj => idle_hash_ne sampleGenesis_idle hH hi (by omega) (by omega)) hv
    have hr' := hr.process (authoritativeTransactionVerifier H)
      (some (idleOn H sampleGenesis UtxoSet.new (i + 1)).header.timestamp) (idleOn H sampleGenesis UtxoSet.new (i + 1))
      trivial
    rw [hproc] at hr'
    exact ⟨st', n', hr', h'⟩

/-- From the largest target even the shortest time leads above the cap. -/
theorem easy_not_representable {first n : BlockNode} (hn : n.block.header.difficultyTarget = easyBits) :
    ¬ Representable (retargetQuotient first n) := by
  rintro ⟨hle, -⟩
  have hmax : (Target.fromCompact easyBits).val = 2 ^ 256 - 1 := by decide
  have htime : 21600 ≤ clampedTime first.block.header.timestamp.toNat n.block.header.timestamp.toNat := by
    rw [clampedTime]
    omega
  have h1 : (2 ^ 256 - 1) * 21600 / 86400 ≤ retargetQuotient first n := by
    rw [retargetQuotient, hn, hmax]
    exact Nat.div_le_div_right (Nat.mul_le_mul_left _ htime)
  have h2 : maxRetarget < (2 ^ 256 - 1) * 21600 / 86400 := by decide
  omega

/-- A digest that keeps the bytes of the timestamp. -/
def stampDigest : Hasher := fun bs => ⟨(List.replicate 24 0 ++ (bs.drop 100).take 8 ++ List.replicate 8 0).take 32, by simp⟩

theorem stampDigest_header (h : BlockHeader) :
    (h.hash stampDigest).bytes = List.replicate 24 0 ++ u64le h.timestamp := by
  have hpre : (u32le h.version ++ h.previousBlockHash.bytes ++ h.transactionCommitment.bytes ++ h.utxoRoot.bytes).length =
      100 := by
    simp [h.previousBlockHash.size, h.transactionCommitment.size, h.utxoRoot.size]
  have hdrop : h.canonicalBytes.drop 100 = u64le h.timestamp ++ u32le h.difficultyTarget ++ u64le h.nonce := by
    rw [BlockHeader.canonicalBytes, List.append_assoc _ (u64le h.timestamp), List.append_assoc _ (_ ++ _),
      List.drop_left' hpre]
  have htake : (h.canonicalBytes.drop 100).take 8 = u64le h.timestamp := by
    rw [hdrop, List.append_assoc, List.take_left' (by simp)]
  show (List.replicate 24 0 ++ (h.canonicalBytes.drop 100).take 8 ++ List.replicate 8 0).take 32 = _
  rw [htake, List.take_left' (by simp)]

theorem stampDigest_collisionFree {first : Block} (hf : IdleFirst first) (u : UtxoSet) :
    CollisionFree stampDigest (idleHeadersOn stampDigest first u) := by
  intro x hx y hy e
  obtain ⟨i, hi, rfl⟩ := List.mem_map.mp hx
  obtain ⟨j, hj, rfl⟩ := List.mem_map.mp hy
  have hb := congrArg Hash256.bytes e
  have h1 := stampDigest_header (idleOn stampDigest first u i).header
  have h2 := stampDigest_header (idleOn stampDigest first u j).header
  rw [BlockHeader.hash] at h1 h2
  rw [h1, h2] at hb
  have hts := u64le_inj (List.append_cancel_left hb)
  rw [List.mem_range] at hi hj
  rw [idle_timestamp _ u hf, idle_timestamp _ u hf, ← UInt64.toNat_inj, idle_toNat (by omega), idle_toNat (by omega)] at hts
  have : i = j := by omega
  rw [this]

/-- The chain's last block before the boundary. -/
theorem idle_boundary (hH : CollisionFree H (idleHeaders H)) : ∃ st n, Reach H anyResult (sampleStart H) st ∧
    Idle H sampleGenesis UtxoSet.new 1439 st n ∧ AtBoundary n := by
  obtain ⟨st, n, hr, h⟩ := idle_reached hH (i := 1439) (by omega)
  exact ⟨st, n, hr, h, 1, by rw [h.height]⟩

/-- Whatever the digest, as long as it does not collide on the headers of the chain: no
    block extends its block at height 1439. And there is such a digest. -/
theorem stuck_at_first_boundary :
    (∀ H : Hasher, CollisionFree H (idleHeaders H) → ∃ st k n, Reach H anyResult (sampleStart H) st ∧
      st.tree.getNode k = some n ∧ AtBoundary n ∧ ¬ Extendable st.tree k n) ∧
    CollisionFree stampDigest (idleHeaders stampDigest) := by
  refine ⟨fun H hH => ?_, stampDigest_collisionFree sampleGenesis_idle UtxoSet.new⟩
  obtain ⟨st, n, hr, h, hb⟩ := idle_boundary hH
  refine ⟨st, _, n, hr, h.stored, hb, ?_⟩
  obtain ⟨first, T, -, hT, hval⟩ := (reach_treeInv hr).boundary_target h.stored hb
  rw [extendable_of_target hT, hval, nameable_capped_iff]
  exact easy_not_representable (by rw [h.block, idle_bits H _ sampleGenesis_idle])

theorem extendable_iff_idle : ∃ st k n first, Reach stampDigest anyResult (sampleStart stampDigest) st ∧
    st.tree.getNode k = some n ∧ AtBoundary n ∧ epochStart (st.tree.getPathFromGenesis k) = some first ∧
      (Extendable st.tree k n ↔ Representable (retargetQuotient first n)) := by
  obtain ⟨st, n, hr, h, hb⟩ := idle_boundary (stampDigest_collisionFree sampleGenesis_idle UtxoSet.new)
  obtain ⟨first, hfirst, hiff⟩ := extendable_iff hr h.stored hb
  exact ⟨st, _, n, first, hr, h.stored, hb, hfirst, hiff⟩

end Scytale
