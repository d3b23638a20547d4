/-
  Scytale.Node.Acceptance — what a node makes of the blocks it builds
  (apps/scytale-node/src/node.rs, crates/scytale-mining/src/worker.rs).

  A template that was built has been applied to the set it extends, so its structure, its
  commitment and its root stand. Nothing in the pool or the builder looks at lock times, at
  the scripts' verdict at the next height, or at the gas of a block.
  - `template_accepted_iff`: off the retarget heights a solved template becomes the tip exactly
    when these, the fees, the record of invalid blocks, and the work stand as well; the fees do
    in every run that agrees with a naming of the outputs.
  - `locked_template_refused`: a transaction that may not be mined yet is admitted, built into
    a template, and the block is refused.
-/
import Scytale.Node.NamedRun
import Scytale.Node.MinerTarget

namespace Scytale

open Lib

variable {H : Hasher} {eng : Engines} {naming : Naming}

/-- The block of a template, solved by a nonce at a time. -/
def BlockTemplate.solved (H : Hasher) (t : BlockTemplate) (nonce timestamp : UInt64) : Block :=
  t.assembleBlock { t.buildHeader H nonce with timestamp := timestamp }

/-- The engines accept the spends, each on the set the ones before it left, within the gas of
    a block. -/
def EnginesAccept (H : Hasher) (eng : Engines) (height blockTime : UInt64) : UtxoSet → UInt64 → List Transaction → Prop
  | _, _, [] => True
  | s, gas, tx :: txs => ∃ gas', verifySpend H eng height blockTime s gas tx = .ok gas' ∧
      EnginesAccept H eng height blockTime (UtxoSet.applyTransaction H s tx height).1 gas' txs

/-- The block pays the fees the pool recorded for what the builder takes. -/
def FeesCovered (H : Hasher) (node : Node) (height : UInt64) (b : Block) : Prop :=
  ∀ u fees, UtxoSet.applyBlock H node.chain.utxo b.transactions height = .ok (u, fees) →
    (getBlockSubsidy height).toNat + fees.toNat < 2 ^ 64 ∧
      (pickTransactions H node.chain.utxo node.mempool).totalFees ≤ fees

/-- What the builder does not see to, of a block on the tip `n`. -/
structure Acceptable (H : Hasher) (eng : Engines) (node : Node) (n : BlockNode) (b : Block) : Prop where
  unmarked : node.chain.tree.isBlockInvalid (b.header.hash H) = false
  tip_unmarked : node.chain.tree.isBlockInvalid node.chain.tree.canonicalTip = false
  fresh : node.chain.tree.getNode (b.header.hash H) = none
  target : Target.fromCompact b.header.difficultyTarget = Target.fromCompact n.block.header.difficultyTarget
  positive : 0 < (Target.fromCompact b.header.difficultyTarget).val
  work : n.cumulativeWork.val + (blockWork (Target.fromCompact b.header.difficultyTarget)).val < 2 ^ 256
  locks : validateLockTimes (n.height + 1) (calculateMedianTimePast
    (node.chain.tree.headersTo node.chain.tree.canonicalTip)
    (node.chain.tree.headersTo node.chain.tree.canonicalTip).length) b.transactions.tail = .ok ()
  fees : FeesCovered H node (n.height + 1) b
  spends : EnginesAccept H eng (n.height + 1) b.header.timestamp
    (UtxoSet.applyCoinbase H node.chain.utxo (b.transactions.headD ⟨0, [], [], 0⟩) (n.height + 1)).1 0 b.transactions.tail

/-! ## What a template that was built passes -/

theorem validateRest_of_applyRest {height : UInt64} {txs : List Transaction} : ∀ {s s' : UtxoSet} {fees fees' : UInt64}
    {idx : Nat}, UtxoSet.applyRest H height s fees txs = .ok (s', fees') → Block.validateRest idx txs = .ok () := by
  induction txs with
  | nil => intro _ _ _ _ _ _; rfl
  | cons tx txs ih =>
    intro s s' fees fees' idx h
    obtain ⟨hcb, s₁, fee, fees₁, hap, -, hrest⟩ := UtxoSet.applyRest_cons h
    simp only [Block.validateRest, hcb, (UtxoSet.applyTransaction_ok hap).1, Bool.false_eq_true, if_false, ih hrest]

/-- A block that applies has the structure. -/
theorem validateStructure_of_applyBlock {b : Block} {s s' : UtxoSet} {height fees : UInt64}
    (h : UtxoSet.applyBlock H s b.transactions height = .ok (s', fees)) : b.validateStructure = .ok () := by
  obtain ⟨cb, rest, s₁, htxs, hcb, -, hrest⟩ := UtxoSet.applyBlock_ok h
  simp only [Block.validateStructure, htxs, hcb, Bool.not_true, Bool.false_eq_true, if_false,
    validateRest_of_applyRest hrest]

/-- What the verifier adds to applying the spends is the engines' verdict. -/
theorem validateTransactions_iff {height blockTime : UInt64} {txs : List Transaction} : ∀ {s s' : UtxoSet}
    {fees fees' gas : UInt64}, UtxoSet.applyRest H height s fees txs = .ok (s', fees') →
      txs.all Transaction.encodable = true →
      ((∃ staged, validateTransactions H eng height blockTime s gas txs = .ok staged) ↔
        EnginesAccept H eng height blockTime s gas txs) := by
  induction txs with
  | nil => intro s s' fees fees' gas _ _; exact iff_of_true ⟨s, rfl⟩ trivial
  | cons tx txs ih =>
    intro s s' fees fees' gas h henc
    obtain ⟨hcb, s₁, fee, fees₁, hap, -, hrest⟩ := UtxoSet.applyRest_cons h
    obtain ⟨-, hins, -⟩ := UtxoSet.applyTransaction_ok hap
    rw [List.all_cons, Bool.and_eq_true] at henc
    simp only [validateTransactions, EnginesAccept, hcb, henc.1, hap, Bool.not_true, Bool.false_eq_true, if_false]
    cases hspend : verifySpend H eng height blockTime s gas tx with
    | error e => simp
    | ok gas' => simpa only [hins, Except.ok.injEq, exists_eq_left'] using ih hrest henc.2

/-- So for a block that applies. -/
theorem validateBlockTransactions_iff {b : Block} {s s' : UtxoSet} {height blockTime fees : UInt64}
    (h : UtxoSet.applyBlock H s b.transactions height = .ok (s', fees))
    (henc : b.transactions.all Transaction.encodable = true) :
    (∃ staged, validateBlockTransactions H eng b height blockTime s = .ok staged) ↔
      EnginesAccept H eng height blockTime
        (UtxoSet.applyCoinbase H s (b.transactions.headD ⟨0, [], [], 0⟩) height).1 0 b.transactions.tail := by
  obtain ⟨cb, rest, s₁, htxs, hcb, hapcb, hrest⟩ := UtxoSet.applyBlock_ok h
  obtain ⟨-, hins⟩ := UtxoSet.applyCoinbase_ok hapcb
  rw [htxs, List.all_cons, Bool.and_eq_true] at henc
  simp only [validateBlockTransactions, htxs, validateTransactions, hcb, henc.1, hins, if_true, Bool.not_true,
    Bool.false_eq_true, if_false, List.headD_cons, List.tail_cons, hapcb]
  exact validateTransactions_iff hrest henc.2

/-- The check of the reward returns the fees it was given. -/
theorem checkReward_fees {b : Block} {height fees f : UInt64} (h : checkReward b height fees = .ok f) : f = fees := by
  unfold checkReward at h
  split at h
  · cases h
  · split at h
    · cases h
    · split at h
      · cases h
      · exact (Except.ok.inj h).symm

section
variable {chain : ChainTree} {utxos : UtxoSet} {m : Mempool} {bits : UInt32} {payout : Bytes} {template : BlockTemplate}
  {tip : BlockNode} {coinbaseValue fees : UInt64} {u : UtxoSet}

theorem Built.solved_transactions (h : Built H chain utxos m bits payout template tip coinbaseValue u fees)
    (nonce timestamp : UInt64) : (template.solved H nonce timestamp).transactions =
      Transaction.newCoinbase (tip.height + 1) [⟨coinbaseValue, payout⟩] :: (pickTransactions H utxos m).selectedTxs :=
  h.transactions

theorem Built.commitment (h : Built H chain utxos m bits payout template tip coinbaseValue u fees)
    (nonce timestamp : UInt64) : (template.solved H nonce timestamp).header.transactionCommitment =
      transactionCommitment H (template.solved H nonce timestamp) := by
  show template.computeTransactionCommitment H = H (template.transactions.flatMap fun t => (t.txid H).bytes)
  simp only [BlockTemplate.computeTransactionCommitment]
  rw [if_neg]
  -- the coinbase's identifier has 32 bytes
  rw [h.transactions, List.flatMap_cons, List.isEmpty_iff]
  intro hnil
  have hlen := congrArg List.length (List.append_eq_nil_iff.mp hnil).1
  rw [Hash256.size] at hlen
  cases hlen

theorem Built.height_named (h : Built H chain utxos m bits payout template tip coinbaseValue u fees)
    (nonce timestamp : UInt64) : nodeBlockHeight (template.solved H nonce timestamp) = tip.height + 1 := by
  have hcb : (Transaction.newCoinbase (tip.height + 1) [⟨coinbaseValue, payout⟩]).isCoinbase = true := rfl
  have hauth : (u64le (tip.height + 1)).take 8 = u64le (tip.height + 1) :=
    List.take_of_length_le (by rw [u64le_length])
  have hval : leNat (u64le (tip.height + 1)) = (tip.height + 1).toNat := by
    have hlt : (tip.height + 1).toNat < 256 ^ 8 := (tip.height + 1).toNat_lt
    rw [u64le, leNat_leBytes, Nat.mod_eq_of_lt hlt]
  rw [nodeBlockHeight, coinbaseHeight, h.solved_transactions, List.head?_cons]
  simp only [hcb, if_true]
  simp only [Transaction.newCoinbase, TxIn.new, List.head?_cons, u64le_length, Nat.lt_irrefl, if_false, hauth, hval]
  exact UInt64.ofNat_toNat

/-- The coinbase claims the subsidy and the recorded fees. -/
theorem Built.reward_iff (h : Built H chain utxos m bits payout template tip coinbaseValue u fees)
    (nonce timestamp : UInt64) : checkReward (template.solved H nonce timestamp) (tip.height + 1) fees = .ok fees ↔
      (getBlockSubsidy (tip.height + 1)).toNat + fees.toNat < 2 ^ 64 ∧ (pickTransactions H utxos m).totalFees ≤ fees := by
  have hout : (Transaction.newCoinbase (tip.height + 1) [⟨coinbaseValue, payout⟩]).totalOutputQuanta = .ok coinbaseValue := by
    have hzero : checkedAdd 0 coinbaseValue = some coinbaseValue := by
      have h0 : (0 : UInt64).toNat = 0 := rfl
      rw [checkedAdd_of_lt (by rw [h0, Nat.zero_add]; exact coinbaseValue.toNat_lt), UInt64.zero_add]
    simp only [Transaction.totalOutputQuanta, Transaction.newCoinbase, Transaction.sumOutputs, hzero]
  have hclaimed := checkedAdd_eq_some h.reward
  simp only [checkReward, h.solved_transactions, List.headD_cons, hout]
  cases hmax : checkedAdd (getBlockSubsidy (tip.height + 1)) fees with
  | none =>
    refine iff_of_false (fun e => by cases e) ?_
    rintro ⟨hlt, -⟩
    rw [checkedAdd_of_lt hlt] at hmax
    cases hmax
  | some maximumReward =>
    have hpaid := checkedAdd_eq_some hmax
    have hlt := maximumReward.toNat_lt
    have hle : ¬ coinbaseValue > maximumReward ↔ (pickTransactions H utxos m).totalFees ≤ fees := by
      rw [UInt64.not_lt, UInt64.le_iff_toNat_le, UInt64.le_iff_toNat_le]
      omega
    simp only
    split
    · rename_i hgt
      exact iff_of_false (fun e => by cases e) fun h => hle.mpr h.2 hgt
    · rename_i hgt
      exact iff_of_true rfl ⟨by omega, hle.mp hgt⟩

/-- The authoritative checks leave the lock times and the fees. -/
theorem Built.authoritative_iff (h : Built H chain utxos m bits payout template tip coinbaseValue u fees)
    (nonce timestamp : UInt64) (headers : List BlockHeader) :
    (∃ f, validateBlockAuthoritativeWithHeaders H (template.solved H nonce timestamp) (tip.height + 1) utxos headers =
        .ok f) ↔
      validateLockTimes (tip.height + 1) (calculateMedianTimePast headers headers.length)
        (template.solved H nonce timestamp).transactions.tail = .ok () ∧
      (getBlockSubsidy (tip.height + 1)).toNat + fees.toNat < 2 ^ 64 ∧ (pickTransactions H utxos m).totalFees ≤ fees := by
  have hap : UtxoSet.applyBlock H utxos (template.solved H nonce timestamp).transactions (tip.height + 1) = .ok (u, fees) :=
    h.applies
  simp only [validateBlockAuthoritativeWithHeaders, validateStructure_of_applyBlock hap, h.commitment, ne_eq,
    not_true_eq_false, if_false, hap]
  rw [← h.reward_iff nonce timestamp]
  cases validateLockTimes (tip.height + 1) (calculateMedianTimePast headers headers.length)
    (template.solved H nonce timestamp).transactions.tail with
  | error e => simp
  | ok r =>
    constructor
    · rintro ⟨f, hf⟩
      obtain rfl := checkReward_fees hf
      exact ⟨rfl, hf⟩
    · rintro ⟨-, hf⟩
      exact ⟨fees, hf⟩

/-- A template's block connects to the set it was built on when these and the engines allow. -/
theorem Built.connects_iff (h : Built H chain utxos m bits payout template tip coinbaseValue u fees)
    {nonce timestamp : UInt64} {node : BlockNode} (hblock : node.block = template.solved H nonce timestamp)
    (hheight : node.height = tip.height + 1) (headers : List BlockHeader) :
    (∃ s, connectNode H headers (nodeBlockVerifier H eng) utxos node = .ok s) ↔
      (∃ f, validateBlockAuthoritativeWithHeaders H (template.solved H nonce timestamp) (tip.height + 1) utxos headers =
        .ok f) ∧
      EnginesAccept H eng (tip.height + 1) timestamp (UtxoSet.applyCoinbase H utxos
        ((template.solved H nonce timestamp).transactions.headD ⟨0, [], [], 0⟩) (tip.height + 1)).1 0
        (template.solved H nonce timestamp).transactions.tail := by
  have hap : UtxoSet.applyBlock H utxos (template.solved H nonce timestamp).transactions (tip.height + 1) = .ok (u, fees) :=
    h.applies
  have hreplay : replay H utxos [node] = .ok u := replay_one.mpr ⟨fees, by rw [hblock, hheight]; exact hap⟩
  have hroot : (template.solved H nonce timestamp).header.utxoRoot = u.computeUtxoRoot H := h.root
  have htime : (template.solved H nonce timestamp).header.timestamp = timestamp := rfl
  rw [← validateBlockTransactions_iff hap h.encodable]
  simp only [connectNode, hblock, hheight, hreplay, hroot, ne_eq, not_true_eq_false, if_false, nodeBlockVerifier,
    h.height_named, htime]
  cases validateBlockAuthoritativeWithHeaders H (template.solved H nonce timestamp) (tip.height + 1) utxos headers with
  | error e => simp
  | ok f =>
    cases validateBlockTransactions H eng (template.solved H nonce timestamp) (tip.height + 1) timestamp utxos with
    | error e => simp
    | ok staged => simp

end

/-! ## The block on its tip -/

/-- Off the boundaries, a header with its parent's target, the work and a time in the
    window. -/
theorem checkHeader_inner {path : List BlockNode} {n : BlockNode} {header : BlockHeader} {clock : UInt64}
    (hb : ¬AtBoundary n)
    (htarget : Target.fromCompact header.difficultyTarget = Target.fromCompact n.block.header.difficultyTarget)
    (hpow : (Target.fromCompact header.difficultyTarget).isMetBy (header.hash H) = true)
    (hlater : n.block.header.timestamp < header.timestamp)
    (hdrift : header.timestamp.toNat ≤ min (clock.toNat + maxFutureDrift.toNat) (2 ^ 64 - 1)) :
    checkHeader H path n header (some clock) = .ok () := by
  have hmet : verifyPow H header (Target.fromCompact n.block.header.difficultyTarget) = .ok () := by
    rw [verifyPow, ← htarget, hpow]
    rfl
  simp only [checkHeader, checkTarget, inner_target path hb, validateBlockTarget_ok.mpr htarget, hmet,
    if_neg (UInt64.not_le.mpr hlater), if_neg (Nat.not_lt.mpr hdrift)]

/-- And only with its parent's target. -/
theorem checkHeader_target {path : List BlockNode} {n : BlockNode} {header : BlockHeader} {now : Option UInt64}
    (hb : ¬AtBoundary n) (h : checkHeader H path n header now = .ok ()) :
    Target.fromCompact header.difficultyTarget = Target.fromCompact n.block.header.difficultyTarget := by
  obtain ⟨⟨T, hT, -⟩, -⟩ := checkHeader_ok h
  simp only [checkTarget, inner_target path hb] at hT
  split at hT
  · cases hT
  · rename_i hv
    exact validateBlockTarget_ok.mp hv

theorem newNode_of_fits {n : BlockNode} {b : Block}
    (h : n.cumulativeWork.val + (blockWork (Target.fromCompact b.header.difficultyTarget)).val < 2 ^ 256) :
    ∃ node, newNode H n b = some node := by
  simp only [newNode]
  cases hadd : n.cumulativeWork.checkedAdd (blockWork (Target.fromCompact b.header.difficultyTarget)) with
  | none =>
    have := CumulativeWork.checkedAdd_eq_none hadd
    omega
  | some w => exact ⟨_, rfl⟩

/-- The block is taken and becomes the tip. -/
def BecomesTip (H : Hasher) (v : Verifier) (now : Option UInt64) (st : ChainState) (b : Block) : Prop :=
  ∃ chain r, processBlockWithVerifier H v now st b = (chain, .ok (some r)) ∧ chain.tree.canonicalTip = b.header.hash H

/-- A block on the tip becomes the tip when it is admitted, has work that counts, and
    connects to the set. -/
theorem becomesTip_iff {v : Verifier} {now : Option UInt64} {st : ChainState} {b : Block} {n : BlockNode}
    (htip : st.tree.getNode st.tree.canonicalTip = some n) (hprev : b.header.previousBlockHash = st.tree.canonicalTip) :
    BecomesTip H v now st b ↔ Admitted H now st b n st.utxo ∧
      0 < (Target.fromCompact b.header.difficultyTarget).val ∧ ∃ node, newNode H n b = some node ∧
        ∃ s, connectNode H (st.tree.headersTo st.tree.canonicalTip) v st.utxo node = .ok s := by
  have hself : ∀ {k : Hash256} {pu : UtxoSet}, k = st.tree.canonicalTip → st.tree.parentUtxo H st.utxo k = .ok pu →
      pu = st.utxo := by
    intro k pu hk h
    rw [ChainTree.parentUtxo, if_pos hk] at h
    exact (Except.ok.inj h).symm
  constructor
  · rintro ⟨chain, r, hproc, -⟩
    have o := process_outcome H v now st b
    rw [hproc] at o
    cases o with
    | switched parent node tip pu adm ancestor staged utxo r hnode htip' hlt conn =>
      obtain rfl : parent = n := by
        have := adm.parent_stored
        rw [hprev, htip] at this
        exact (Option.some.inj this).symm
      obtain rfl := hself hprev adm.state
      obtain rfl : parent = tip := Option.some.inj (htip.symm.trans htip')
      obtain ⟨-, hparent, -, -, hwork, hcum⟩ := newNode_eq hnode
      rw [hprev] at hparent
      refine ⟨adm, Nat.pos_of_ne_zero fun h0 => ?_, node, hnode, utxo, ?_⟩
      · -- a block without work is no heavier than its parent
        rw [hcum, hwork, blockWork_zero h0] at hlt
        omega
      · obtain ⟨hfound, hbase, hconn⟩ := conn
        rw [hparent, ChainTree.findCommonAncestor, Ancestry.commonAncestor, if_pos rfl] at hfound
        obtain rfl := Except.ok.inj hfound
        obtain rfl := hself rfl hbase
        rw [hparent, ChainTree.walkUpto, Ancestry.upto_self] at hconn
        simp only [List.map_nil, List.reverse_nil, List.nil_append, connectNodes, hparent] at hconn
        split at hconn
        · cases hconn
        · rename_i s hs
          rw [hs, Except.ok.inj hconn]
  · rintro ⟨adm, hpos, node, hnode, s, hconn⟩
    obtain ⟨hhash, hparent, -, -, hwork, hcum⟩ := newNode_eq hnode
    have hlt : n.cumulativeWork.val < node.cumulativeWork.val := by
      have := blockWork_pos hpos
      rw [hcum, hwork]
      omega
    rw [hprev] at hparent
    exact ⟨_, _, process_extends adm hnode hparent htip hlt (by rw [hparent]; exact hconn), hhash⟩

/-- On every node of every run whose next height is off the retargets: a template that was
    built, solved at a time in the window, becomes the tip exactly when it is acceptable; and
    where the run agrees with a naming of the outputs the fees are covered. -/
theorem template_accepted_iff {node : Node} (hr : NodeRun H eng node) {n : BlockNode}
    (htip : node.chain.tree.getNode node.chain.tree.canonicalTip = some n) (hb : ¬AtBoundary n) {bits : UInt32}
    {payout : Bytes} {time : UInt64} {template : BlockTemplate}
    (ht : buildTemplate H node.chain.tree node.chain.utxo node.mempool bits payout time = .ok template)
    {nonce timestamp clock : UInt64}
    (hpow : (Target.fromCompact template.compactTarget).isMetBy ((template.solved H nonce timestamp).header.hash H) = true)
    (hlater : n.block.header.timestamp < timestamp)
    (hdrift : timestamp.toNat ≤ min (clock.toNat + maxFutureDrift.toNat) (2 ^ 64 - 1)) :
    (BecomesTip H (nodeBlockVerifier H eng) (some clock) node.chain (template.solved H nonce timestamp) ↔
      Acceptable H eng node n (template.solved H nonce timestamp)) ∧
    ∀ naming, Named H naming buildGenesisCoinbase → NamedRun H eng naming node →
      (∀ t ∈ template.transactions.head?, Named H naming t) →
        FeesCovered H node (n.height + 1) (template.solved H nonce timestamp) := by
  obtain ⟨genesis, htree⟩ := nodeRun_treeInv hr
  obtain ⟨tip, coinbaseValue, u, fees, hbuilt⟩ := buildTemplate_ok ht
  obtain rfl : tip = n := Option.some.inj (hbuilt.stored.symm.trans htip)
  have hprev : (template.solved H nonce timestamp).header.previousBlockHash = node.chain.tree.canonicalTip := hbuilt.previous
  have hap : UtxoSet.applyBlock H node.chain.utxo (template.solved H nonce timestamp).transactions (tip.height + 1) =
      .ok (u, fees) := hbuilt.applies
  have hcovered : FeesCovered H node (tip.height + 1) (template.solved H nonce timestamp) ↔
      (getBlockSubsidy (tip.height + 1)).toNat + fees.toNat < 2 ^ 64 ∧
        (pickTransactions H node.chain.utxo node.mempool).totalFees ≤ fees := by
    refine ⟨fun h => h u fees hap, fun h u' fees' hap' => ?_⟩
    rw [hap] at hap'
    cases hap'
    exact h
  refine ⟨?_, fun naming hg hnr hcb => ?_⟩
  · rw [becomesTip_iff htip hprev]
    constructor
    · rintro ⟨adm, hpos, node', hnode, s, hconn⟩
      obtain ⟨-, -, hheight, hblock, hwork, hcum⟩ := newNode_eq hnode
      obtain ⟨hvalid, hspends⟩ := (hbuilt.connects_iff hblock hheight _).mp ⟨s, hconn⟩
      obtain ⟨hlocks, hfees⟩ := (hbuilt.authoritative_iff nonce timestamp _).mp hvalid
      have hval := node'.cumulativeWork.val_lt
      rw [hcum, hwork] at hval
      have htip_unmarked := adm.parent_unmarked
      rw [hprev] at htip_unmarked
      exact ⟨adm.unmarked, htip_unmarked, adm.fresh, checkHeader_target hb adm.header, hpos, hval, hlocks,
        hcovered.mpr hfees, hspends⟩
    · intro h
      obtain ⟨node', hnode⟩ := newNode_of_fits h.work
      obtain ⟨-, -, hheight, hblock, -⟩ := newNode_eq hnode
      have hvalid := (hbuilt.authoritative_iff nonce timestamp (node.chain.tree.headersTo node.chain.tree.canonicalTip)).mpr
        ⟨h.locks, hcovered.mp h.fees⟩
      have hconn := (hbuilt.connects_iff hblock hheight _).mpr ⟨hvalid, h.spends⟩
      refine ⟨?_, h.positive, node', hnode, hconn⟩
      have hex : Examined H (some clock) node.chain (template.solved H nonce timestamp) tip node.chain.utxo := by
        refine ⟨h.unmarked, ?_, validateStructure_of_applyBlock hap, h.fresh, ?_, ?_, if_pos hprev, ?_⟩
        · rw [hprev]
          exact h.tip_unmarked
        · rw [hprev]
          exact htip
        · exact checkHeader_inner hb h.target hpow hlater hdrift
        · rw [hprev]
          exact htree.median_of_later htip hlater
      exact ⟨hex, hbuilt.encodable, by rw [hprev]; exact hvalid⟩
  · have hinv := namedRun_inv hg hnr
    have hfees := hbuilt.fees_eq hinv.pool hinv.utxo hcb
    have hpaid := checkedAdd_eq_some hbuilt.reward
    have hlt := coinbaseValue.toNat_lt
    rw [hcovered, hfees]
    exact ⟨by omega, UInt64.le_refl _⟩

/-- What a node builds for itself a minute after its tip, none standing for a refusal. -/
def ownTemplate (H : Hasher) (node : Node) (time : UInt64) : BlockTemplate :=
  (buildTemplate H node.chain.tree node.chain.utxo node.mempool (miningTarget node.chain.tree) [0x51] time).toOption.getD
    ⟨Hash256.zero, 0, 0, [], Hash256.zero, 0⟩

/-- The block of that template. -/
def ownBlock (H : Hasher) (node : Node) (time : UInt64) : Block := (ownTemplate H node time).solved H 0 time

/-- The genesis block's node. -/
def freshTip (H : Hasher) : BlockNode := genesisNode H (buildGenesisBlock H easyBits)

set_option maxRecDepth 10000 in
/-- The first block a fresh node builds. -/
theorem template_accepted_first : BecomesTip Blake3.digest (nodeBlockVerifier Blake3.digest acceptAll) (some 1000)
    (freshNode Blake3.digest).chain (ownBlock Blake3.digest (freshNode Blake3.digest) 60) := by
  have hb : ¬AtBoundary (freshTip Blake3.digest) := by
    have hzero : (freshTip Blake3.digest).height = 0 := rfl
    rw [AtBoundary, hzero]
    decide
  have hrun : ((freshNode Blake3.digest).chain.tree.getNode (freshNode Blake3.digest).chain.tree.canonicalTip =
        some (freshTip Blake3.digest) ∧
      buildTemplate Blake3.digest (freshNode Blake3.digest).chain.tree (freshNode Blake3.digest).chain.utxo
        (freshNode Blake3.digest).mempool (miningTarget (freshNode Blake3.digest).chain.tree) [0x51] 60 =
          .ok (ownTemplate Blake3.digest (freshNode Blake3.digest) 60) ∧
      (Target.fromCompact (ownTemplate Blake3.digest (freshNode Blake3.digest) 60).compactTarget).isMetBy
        ((ownBlock Blake3.digest (freshNode Blake3.digest) 60).header.hash Blake3.digest) = true ∧
      (freshTip Blake3.digest).block.header.timestamp < 60) ∧
      ((freshNode Blake3.digest).chain.tree.isBlockInvalid
        ((ownBlock Blake3.digest (freshNode Blake3.digest) 60).header.hash Blake3.digest) = false ∧
      (freshNode Blake3.digest).chain.tree.isBlockInvalid (freshNode Blake3.digest).chain.tree.canonicalTip = false ∧
      (freshNode Blake3.digest).chain.tree.getNode
        ((ownBlock Blake3.digest (freshNode Blake3.digest) 60).header.hash Blake3.digest) = none ∧
      (ownBlock Blake3.digest (freshNode Blake3.digest) 60).header.difficultyTarget = easyBits ∧
      (freshTip Blake3.digest).block.header.difficultyTarget = easyBits ∧
      (freshTip Blake3.digest).cumulativeWork.val = 1 ∧
      (ownBlock Blake3.digest (freshNode Blake3.digest) 60).transactions.tail = []) ∧
      (pickTransactions Blake3.digest (freshNode Blake3.digest).chain.utxo
        (freshNode Blake3.digest).mempool).totalFees = 0 ∧
      (UtxoSet.applyBlock Blake3.digest (freshNode Blake3.digest).chain.utxo
        (ownBlock Blake3.digest (freshNode Blake3.digest) 60).transactions
        ((freshTip Blake3.digest).height + 1)).map (·.2) = .ok 0 := by decide +kernel
  obtain ⟨⟨htip, ht, hpow, hlater⟩, ⟨hunmarked, htip_unmarked, hfresh, hbits, htip_bits, hwork, hnone⟩, hfees, hpaid⟩ := hrun
  rw [ownBlock] at hunmarked hfresh hbits hnone hpaid
  have hfirst : NodeRun Blake3.digest acceptAll (freshNode Blake3.digest) := .fresh freshNode_recovered
  refine (template_accepted_iff hfirst htip hb ht hpow hlater (by decide)).1.mpr ⟨hunmarked, htip_unmarked, hfresh,
    by rw [hbits, htip_bits], ?_, ?_, by rw [hnone]; rfl, ?_, ?_⟩
  · rw [hbits]
    decide
  · rw [hbits, hwork]
    decide
  · intro u fees hap
    rw [hap] at hpaid
    obtain rfl : fees = 0 := Except.ok.inj hpaid
    rw [hfees]
    exact ⟨by decide, UInt64.le_refl _⟩
  · rw [hnone]
    trivial

/-! ## A transaction that may not be mined yet -/

/-- It spends the first block's reward, from height 100 on. -/
def lockedSpend (H : Hasher) : Transaction :=
  ⟨1, [⟨⟨((firstBlock H).transactions.headD ⟨0, [], [], 0⟩).txid H, 0⟩, [0x51], 0⟩], [⟨2400000000, [0x51]⟩], 100⟩

/-- The node after its first block, with that transaction in its pool. -/
def lockedNode (H : Hasher) : Node := (firstNode H).step H acceptAll (.submitTransaction (some 1000) (lockedSpend H))

theorem lockedNode_run : NodeRun Blake3.digest acceptAll (lockedNode Blake3.digest) :=
  .step (.step (.fresh freshNode_recovered) (.submitBlock (some 1000) none (firstBlock Blake3.digest)))
    (.submitTransaction (some 1000) (lockedSpend Blake3.digest))

set_option maxRecDepth 10000 in
/-- The node builds the transaction into its template, and refuses the block. -/
theorem locked_template_refused : ∃ n, NodeRun Blake3.digest acceptAll (lockedNode Blake3.digest) ∧
    (lockedNode Blake3.digest).chain.tree.getNode (lockedNode Blake3.digest).chain.tree.canonicalTip = some n ∧
    ¬AtBoundary n ∧
    buildMiningTemplate Blake3.digest (lockedNode Blake3.digest) [0x51] (some 120) =
      .ok (ownTemplate Blake3.digest (lockedNode Blake3.digest) 120) ∧
    (Target.fromCompact (ownTemplate Blake3.digest (lockedNode Blake3.digest) 120).compactTarget).isMetBy
      ((ownBlock Blake3.digest (lockedNode Blake3.digest) 120).header.hash Blake3.digest) = true ∧
    n.block.header.timestamp < 120 ∧ (120 : UInt64).toNat ≤ min ((1000 : UInt64).toNat + maxFutureDrift.toNat) (2 ^ 64 - 1) ∧
    ¬BecomesTip Blake3.digest (nodeBlockVerifier Blake3.digest acceptAll) (some 1000) (lockedNode Blake3.digest).chain
      (ownBlock Blake3.digest (lockedNode Blake3.digest) 120) := by
  have hrun : ((lockedNode Blake3.digest).chain.tree.getNode (lockedNode Blake3.digest).chain.tree.canonicalTip).map
        (fun n => (n.height, n.block.header.timestamp)) = some (1, 60) ∧
      buildMiningTemplate Blake3.digest (lockedNode Blake3.digest) [0x51] (some 120) =
        .ok (ownTemplate Blake3.digest (lockedNode Blake3.digest) 120) ∧
      (Target.fromCompact (ownTemplate Blake3.digest (lockedNode Blake3.digest) 120).compactTarget).isMetBy
        ((ownBlock Blake3.digest (lockedNode Blake3.digest) 120).header.hash Blake3.digest) = true ∧
      (processBlockWithVerifier Blake3.digest (nodeBlockVerifier Blake3.digest acceptAll) (some 1000)
        (lockedNode Blake3.digest).chain (ownBlock Blake3.digest (lockedNode Blake3.digest) 120)).2 =
          .error (.reorgFailed ((ownBlock Blake3.digest (lockedNode Blake3.digest) 120).header.hash Blake3.digest)
            (.consensus .lockTimeNotMet)) := by decide +kernel
  obtain ⟨htip, hbuilt, hpow, hrefused⟩ := hrun
  cases hn : (lockedNode Blake3.digest).chain.tree.getNode (lockedNode Blake3.digest).chain.tree.canonicalTip with
  | none =>
    rw [hn] at htip
    cases htip
  | some n =>
    rw [hn] at htip
    obtain ⟨hheight, htime⟩ := Prod.mk.inj (Option.some.inj htip)
    refine ⟨n, lockedNode_run, rfl, ?_, hbuilt, hpow, ?_, by decide, ?_⟩
    · rw [AtBoundary, hheight]
      decide
    · rw [htime]
      decide
    · rintro ⟨chain, r, hproc, -⟩
      rw [hproc] at hrefused
      cases hrefused

end Scytale
