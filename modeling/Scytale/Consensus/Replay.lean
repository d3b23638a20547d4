/-
  Scytale.Consensus.Replay — the UTXO set is the replay of the canonical chain.

  `StateInv` adds to the tree's invariant that the set the caller holds is the replay of
  the path to the tip, and that every stored block passed the authoritative checks on the
  replay of its parent's path. Tip extension and reorganisation keep it for one reason: the
  branch that is connected, put behind the path to the common ancestor, is the path to the
  new tip (`Connected.path`).
  - `reach_stateInv`: the invariant holds along every run.
  - `every_path_replays`: every stored block's path replays, not only the tip's.
  - `utxo_is_replay`: the replay, and that a call that moves no tip changes neither tip
    nor set.
-/
import Scytale.Consensus.ChainInv
import Scytale.Core.Genesis

namespace Scytale

open Lib

variable {H : Hasher} {genesis : Block}

/-! ## Replaying lists of blocks -/

theorem replay_append (xs : List BlockNode) : ∀ (s : UtxoSet) (ys : List BlockNode),
    replay H s (xs ++ ys) = match replay H s xs with
      | .error e => .error e
      | .ok s' => replay H s' ys := by
  induction xs with
  | nil => intro s ys; rfl
  | cons x xs ih =>
    intro s ys
    rw [List.cons_append, replay, replay]
    split
    · rfl
    · split
      · rfl
      · exact ih _ _

theorem replay_append_ok {xs ys : List BlockNode} {s s₁ s₂ : UtxoSet} (hx : replay H s xs = .ok s₁)
    (hy : replay H s₁ ys = .ok s₂) : replay H s (xs ++ ys) = .ok s₂ := by
  rw [replay_append, hx]
  exact hy

/-- A list that replays does so part by part. -/
theorem replay_split {xs ys : List BlockNode} {s s' : UtxoSet} (h : replay H s (xs ++ ys) = .ok s') :
    ∃ s₁, replay H s xs = .ok s₁ ∧ replay H s₁ ys = .ok s' := by
  rw [replay_append] at h
  cases hx : replay H s xs with
  | error e =>
    rw [hx] at h
    cases h
  | ok s₁ =>
    rw [hx] at h
    exact ⟨s₁, rfl, h⟩

/-- One block that replays was applied by `apply_block`. -/
theorem replay_one {n : BlockNode} {s s' : UtxoSet} :
    replay H s [n] = .ok s' ↔ ∃ fees, UtxoSet.applyBlock H s n.block.transactions n.height = .ok (s', fees) := by
  unfold replay
  cases htx : n.block.transactions with
  | nil => simp [UtxoSet.applyBlock]
  | cons cb txs =>
    simp only [UtxoSet.applyBlockTransactions]
    cases hap : UtxoSet.applyBlock H s (cb :: txs) n.height with
    | error e => simp
    | ok r => simp [replay, Prod.ext_iff, eq_comm]

/-- So the first block of a list is applied, and the others replay on what it leaves. -/
theorem replay_cons {n : BlockNode} {ns : List BlockNode} {s s' : UtxoSet} (h : replay H s (n :: ns) = .ok s') :
    ∃ s₁ fees, UtxoSet.applyBlock H s n.block.transactions n.height = .ok (s₁, fees) ∧ replay H s₁ ns = .ok s' := by
  obtain ⟨s₁, hn, hns⟩ := replay_split (show replay H s ([n] ++ ns) = .ok s' from h)
  obtain ⟨fees, hap⟩ := replay_one.mp hn
  exact ⟨s₁, fees, hap, hns⟩

theorem connectNode_replay {hs : List BlockHeader} {v : Verifier} {n : BlockNode} {s s' : UtxoSet}
    (h : connectNode H hs v s n = .ok s') : replay H s [n] = .ok s' := by
  unfold connectNode at h
  split at h
  · cases h
  · split at h
    · cases h
    · split at h
      · cases h
      · rename_i staged' hrep
        split at h
        · cases h
        · cases h
          exact hrep

theorem connectNodes_replay {t : ChainTree} {v : Verifier} {ns : List BlockNode} : ∀ {s s' : UtxoSet},
    connectNodes H t v s ns = .ok s' → replay H s ns = .ok s' := by
  induction ns with
  | nil => intro s s' h; cases h; rfl
  | cons n ns ih =>
    intro s s' h
    unfold connectNodes at h
    split at h
    · cases h
    · rename_i s₁ h₁
      have hone := connectNode_replay h₁
      exact replay_append_ok hone (ih h)

/-- A block that passes the authoritative checks applies, and its coinbase is within the
    subsidy and the fees. -/
theorem authoritative_applies {b : Block} {height : UInt64} {pu : UtxoSet} {hs : List BlockHeader} {fees : UInt64}
    (h : validateBlockAuthoritativeWithHeaders H b height pu hs = .ok fees) :
    ∃ u, UtxoSet.applyBlock H pu b.transactions height = .ok (u, fees) ∧ ∃ cb txs, b.transactions = cb :: txs ∧
      Transaction.outputSum cb.outputs ≤ (getBlockSubsidy height).toNat + fees.toNat := by
  unfold validateBlockAuthoritativeWithHeaders at h
  split at h
  · cases h
  · split at h
    · cases h
    · split at h
      · cases h
      · split at h
        · cases h
        · rename_i u totalFees hap
          unfold checkReward at h
          split at h
          · cases h
          · rename_i out hout
            split at h
            · cases h
            · rename_i maxReward hmax
              split at h
              · cases h
              · rename_i hle
                cases h
                obtain ⟨cb, txs, -, htx, -⟩ := UtxoSet.applyBlock_ok hap
                rw [htx, List.headD_cons] at hout
                have h1 := Transaction.totalOutputQuanta_ok hout
                have h2 := checkedAdd_eq_some hmax
                have h3 := UInt64.le_iff_toNat_le.mp (UInt64.not_lt.mp hle)
                exact ⟨u, hap, cb, txs, htx, by omega⟩

/-! ## The invariant -/

/-- The block passed the authoritative checks on the replay of its parent's path. -/
def Validated (H : Hasher) (t : ChainTree) (n : BlockNode) : Prop :=
  ∃ pu fees, replay H UtxoSet.new (t.getPathFromGenesis n.parentHash) = .ok pu ∧
    validateBlockAuthoritativeWithHeaders H n.block n.height pu (t.headersTo n.parentHash) = .ok fees

structure StateInv (H : Hasher) (genesis : Block) (st : ChainState) : Prop where
  tree : TreeInv H genesis st.tree
  replayed : replay H UtxoSet.new (st.tree.getPathFromGenesis st.tree.canonicalTip) = .ok st.utxo
  validated : ∀ {k n}, st.tree.getNode k = some n → k ≠ genesis.header.hash H → Validated H st.tree n

/-- The state at a stored block is the replay of its path, whether it is read off the
    tip's set or computed. -/
theorem StateInv.parentUtxo {st : ChainState} (h : StateInv H genesis st) {k : Hash256} {pu : UtxoSet}
    (hp : st.tree.parentUtxo H st.utxo k = .ok pu) : replay H UtxoSet.new (st.tree.getPathFromGenesis k) = .ok pu := by
  unfold ChainTree.parentUtxo at hp
  split at hp
  · rename_i e
    cases hp
    rw [e]
    exact h.replayed
  · exact hp

theorem Validated.mono {t t' : ChainTree} {root : Hash256} (h : t.RootedAt root) (h' : t'.RootedAt root)
    (hsub : ∀ k n, t.getNode k = some n → t'.getNode k = some n) {n p : BlockNode} (hp : t.getNode n.parentHash = some p)
    (hv : Validated H t n) : Validated H t' n := by
  obtain ⟨pu, fees, hrep, hval⟩ := hv
  have hpath := ChainTree.path_mono h h' hsub hp
  refine ⟨pu, fees, by rw [hpath]; exact hrep, ?_⟩
  rw [ChainTree.headersTo, hpath]
  exact hval

theorem StateInv.congr {st : ChainState} (h : StateInv H genesis st) {t' : ChainTree} (hn : t'.nodes = st.tree.nodes)
    (ht : t'.canonicalTip = st.tree.canonicalTip) : StateInv H genesis ⟨t', st.utxo⟩ := by
  have hg : ∀ k, t'.getNode k = st.tree.getNode k := fun k => by rw [ChainTree.getNode, hn, ChainTree.getNode]
  have hsub : ∀ k n, st.tree.getNode k = some n → t'.getNode k = some n := fun k n hk => by rw [hg, hk]
  have htree := h.tree.congr hn ht
  have hpath : ∀ {k n}, st.tree.getNode k = some n → t'.getPathFromGenesis k = st.tree.getPathFromGenesis k :=
    fun hk => ChainTree.path_mono h.tree.rooted htree.rooted hsub hk
  refine ⟨htree, ?_, ?_⟩
  · obtain ⟨n, htip⟩ := h.tree.tip
    show replay H UtxoSet.new (t'.getPathFromGenesis t'.canonicalTip) = _
    rw [ht, hpath htip]
    exact h.replayed
  · intro k n hk hr
    rw [hg] at hk
    obtain ⟨-, p, hc⟩ := h.tree.child hk hr
    exact (h.validated hk hr).mono h.tree.rooted htree.rooted hsub hc.parent_stored

/-- Storing an admitted block, under a set that is the replay for the tip chosen. -/
theorem Admitted.stateInv {now : Option UInt64} {st : ChainState} {b : Block} {parent node : BlockNode} {pu : UtxoSet}
    (adm : Admitted H now st b parent pu) (hnode : newNode H parent b = some node) (h : StateInv H genesis st)
    {tip : Hash256} {utxo : UtxoSet} (htip : ∃ n, (st.tree.insertNode node).getNode tip = some n)
    (hrep : replay H UtxoSet.new ((st.tree.insertNode node).getPathFromGenesis tip) = .ok utxo) :
    StateInv H genesis ⟨{ st.tree.insertNode node with canonicalTip := tip }, utxo⟩ := by
  have htree := adm.treeInv hnode h.tree _ htip
  have hsub := adm.grows hnode
  refine ⟨htree, hrep, ?_⟩
  intro k n hk hr
  change (st.tree.insertNode node).getNode k = some n at hk
  rw [ChainTree.getNode_insertNode] at hk
  split at hk
  · cases hk
    have hc := adm.isChild hnode
    refine Validated.mono h.tree.rooted htree.rooted hsub hc.parent_stored ?_
    obtain ⟨fees, hval⟩ := adm.valid
    obtain ⟨-, hprev, hheight, hblock, -⟩ := newNode_eq hnode
    refine ⟨pu, fees, by rw [hprev]; exact h.parentUtxo adm.state, ?_⟩
    rw [hblock, hheight, hprev]
    exact hval
  · obtain ⟨-, p, hc⟩ := h.tree.child hk hr
    exact (h.validated hk hr).mono h.tree.rooted htree.rooted hsub hc.parent_stored

/-- The connected branch behind the path to the common ancestor is the path to the new
    block. -/
theorem Connected.path {v : Verifier} {now : Option UInt64} {st : ChainState} {b : Block} {parent node : BlockNode}
    {pu : UtxoSet} (adm : Admitted H now st b parent pu) (hnode : newNode H parent b = some node)
    (h : TreeInv H genesis st.tree) {ancestor : Hash256} {staged utxo : UtxoSet}
    (conn : Connected H v st node ancestor staged utxo) :
    (st.tree.insertNode node).getPathFromGenesis node.hash =
      st.tree.getPathFromGenesis ancestor ++ ((st.tree.walkUpto node.parentHash ancestor).reverse ++ [node]) := by
  obtain ⟨n, htip⟩ := h.tip
  have hpar := (adm.isChild hnode).parent_stored
  obtain ⟨c, hfound, -, hcb, -⟩ := ChainTree.findCommonAncestor_spec h.rooted htip hpar
  have hanc : c = ancestor := by
    have := conn.found
    rw [hfound] at this
    exact Except.ok.inj this
  subst hanc
  rw [adm.stored_path hnode h, ← (newNode_eq hnode).2.1, ChainTree.path_upto h.rooted hpar hcb, List.append_assoc]

theorem Outcome.stateInv {v : Verifier} {now : Option UInt64} {st : ChainState} {b : Block}
    {r : ChainState × Except ChainError (Option ReorgResult)} (o : Outcome H v now st b r) (h : StateInv H genesis st) :
    StateInv H genesis r.1 := by
  -- a stored block leaves the tip's path, and with it the set, as they were
  have hside : ∀ {parent node pu}, Admitted H now st b parent pu → newNode H parent b = some node →
      StateInv H genesis { st with tree := st.tree.insertNode node } := by
    intro parent node pu adm hnode
    obtain ⟨n, htip⟩ := h.tree.tip
    have htip' : ∃ n, (st.tree.insertNode node).getNode st.tree.canonicalTip = some n := ⟨n, adm.grows hnode _ _ htip⟩
    refine adm.stateInv hnode h htip' ?_
    show replay H UtxoSet.new ((st.tree.insertNode node).getPathFromGenesis st.tree.canonicalTip) = .ok st.utxo
    rw [adm.kept_path hnode h.tree htip]
    exact h.replayed
  cases o with
  | refused e he => exact h
  | known m hm => exact h
  | marked hs e he why => exact h.congr (ChainTree.markAll_nodes hs _) (ChainTree.markAll_tip hs _)
  | side parent node tip pu adm hnode => exact hside adm hnode
  | deep parent node tip pu adm depth hnode => exact hside adm hnode
  | switched parent node tip pu adm ancestor staged utxo r hnode htip hlt conn =>
    refine adm.stateInv hnode h ⟨node, ChainTree.getNode_insertNode_self _ _⟩ ?_
    rw [conn.path adm hnode h.tree]
    exact replay_append_ok (h.parentUtxo conn.base) (connectNodes_replay conn.connected)

/-- The tree of the genesis block, with the set it leaves. -/
theorem stateInv_new {utxo : UtxoSet} {fees : UInt64}
    (hg : UtxoSet.applyBlock H UtxoSet.new genesis.transactions 0 = .ok (utxo, fees)) :
    StateInv H genesis ⟨ChainTree.new H genesis, utxo⟩ := by
  have htree := treeInv_new H genesis
  refine ⟨htree, ?_, ?_⟩
  · show replay H UtxoSet.new ((ChainTree.new H genesis).getPathFromGenesis (genesis.header.hash H)) = .ok utxo
    rw [ChainTree.path_root htree.rooted htree.root]
    exact replay_one.mpr ⟨fees, hg⟩
  · intro k n hk hr
    exact absurd (ChainTree.eq_genesis_of_new hk) hr

theorem reach_stateInv {allowed : Except ChainError (Option ReorgResult) → Prop} {utxo : UtxoSet} {fees : UInt64}
    (hg : UtxoSet.applyBlock H UtxoSet.new genesis.transactions 0 = .ok (utxo, fees)) {st : ChainState}
    (hr : Reach H allowed ⟨ChainTree.new H genesis, utxo⟩ st) : StateInv H genesis st := by
  induction hr with
  | start => exact stateInv_new hg
  | process _ v now b _ ih => exact (process_outcome H v now _ b).stateInv ih
  | mark _ k ih => exact ih.congr rfl rfl
  | setDepth _ d ih => exact ih.congr rfl rfl

/-- Every stored block's path replays. -/
theorem StateInv.every_path_replays {st : ChainState} (h : StateInv H genesis st) {utxo : UtxoSet} {fees : UInt64}
    (hg : UtxoSet.applyBlock H UtxoSet.new genesis.transactions 0 = .ok (utxo, fees)) {k : Hash256} {n : BlockNode}
    (hk : st.tree.getNode k = some n) : ∃ u, replay H UtxoSet.new (st.tree.getPathFromGenesis k) = .ok u := by
  by_cases hr : k = genesis.header.hash H
  · refine ⟨utxo, ?_⟩
    rw [hr, ChainTree.path_root h.tree.rooted h.tree.root]
    exact replay_one.mpr ⟨fees, hg⟩
  · obtain ⟨pu, fees, hrep, hval⟩ := h.validated hk hr
    obtain ⟨u, hap, -⟩ := authoritative_applies hval
    refine ⟨u, ?_⟩
    rw [ChainTree.path_child h.tree.rooted hk hr]
    exact replay_append_ok hrep (replay_one.mpr ⟨fees, hap⟩)

/-! ## The result -/

/-- The nodes from the genesis block up to `tip`, each under the one before it. -/
structure IsPath (H : Hasher) (genesis : Block) (tip : Hash256) (path : List BlockNode) : Prop where
  first : path.head? = some (genesisNode H genesis)
  linked : path.IsChain fun a b => b.parentHash = a.hash
  last : (path.getLast?).map (·.hash) = some tip

theorem TreeInv.isPath {t : ChainTree} (h : TreeInv H genesis t) {k : Hash256} {n : BlockNode} (hk : t.getNode k = some n) :
    IsPath H genesis k (t.getPathFromGenesis k) := by
  refine h.rooted.induction (P := fun k => IsPath H genesis k (t.getPathFromGenesis k)) ?_ ?_ hk
  · rw [ChainTree.path_root h.rooted h.root]
    exact ⟨rfl, List.isChain_singleton _, rfl⟩
  · intro k n hk hr ih
    rw [ChainTree.path_child h.rooted hk hr]
    obtain ⟨hfirst, hlinked, hlast⟩ := ih
    refine ⟨?_, ?_, ?_⟩
    · rw [List.head?_append, hfirst]
      rfl
    · refine List.isChain_append.mpr ⟨hlinked, List.isChain_singleton _, ?_⟩
      intro a ha b hb
      simp only [List.head?_cons, Option.mem_def, Option.some.injEq] at hb
      rw [Option.mem_def] at ha
      rw [ha] at hlast
      rw [← hb]
      exact (Option.some.inj hlast).symm
    · simp [h.hash_eq hk]

theorem TreeInv.mem_path {t : ChainTree} (h : TreeInv H genesis t) {k : Hash256} {x n : BlockNode}
    (hk : t.getNode k = some x) (hn : n ∈ t.getPathFromGenesis k) : ∃ k', t.getNode k' = some n := by
  rw [ChainTree.getPathFromGenesis, List.mem_reverse] at hn
  obtain ⟨y, hy, rfl⟩ := List.mem_map.mp hn
  exact ⟨y.1, Ancestry.mem_chain h.rooted hk y hy⟩

/-- A call that returns an error or no result leaves tip and set as they were. -/
theorem Outcome.unchanged {v : Verifier} {now : Option UInt64} {st : ChainState} {b : Block}
    {r : ChainState × Except ChainError (Option ReorgResult)} (o : Outcome H v now st b r)
    (hr : ∀ res, r.2 ≠ .ok (some res)) :
    r.1.tree.canonicalTip = st.tree.canonicalTip ∧ r.1.utxo = st.utxo := by
  cases o with
  | refused e he => exact ⟨rfl, rfl⟩
  | known m hm => exact ⟨rfl, rfl⟩
  | marked hs e he why => exact ⟨ChainTree.markAll_tip hs _, rfl⟩
  | side parent node tip pu adm hnode => exact ⟨rfl, rfl⟩
  | deep parent node tip pu adm depth hnode => exact ⟨rfl, rfl⟩
  | switched parent node tip pu adm ancestor staged utxo res => exact absurd rfl (hr res)

/-- After every call of every run the set is the replay of the path from the genesis
    block to the tip, and a call that returns an error or `Ok(None)` changes neither. -/
theorem utxo_is_replay {utxo : UtxoSet} {fees : UInt64} {st : ChainState}
    (hg : UtxoSet.applyBlock H UtxoSet.new genesis.transactions 0 = .ok (utxo, fees))
    (hr : Reach H anyResult ⟨ChainTree.new H genesis, utxo⟩ st) :
    (IsPath H genesis st.tree.canonicalTip (st.tree.getPathFromGenesis st.tree.canonicalTip) ∧
      replay H UtxoSet.new (st.tree.getPathFromGenesis st.tree.canonicalTip) = .ok st.utxo) ∧
    ∀ (v : Verifier) (now : Option UInt64) (b : Block),
      (∀ res, (processBlockWithVerifier H v now st b).2 ≠ .ok (some res)) →
        (processBlockWithVerifier H v now st b).1.tree.canonicalTip = st.tree.canonicalTip ∧
          (processBlockWithVerifier H v now st b).1.utxo = st.utxo := by
  have h := reach_stateInv hg hr
  obtain ⟨n, htip⟩ := h.tree.tip
  exact ⟨⟨h.tree.isPath htip, h.replayed⟩, fun v now b hres => (process_outcome H v now st b).unchanged hres⟩

/-! ## A sample chain

The runs the concrete theorems of this development evaluate start from a genesis block
that leaves no output. Its bits decode to the largest target, so every header is its own
proof of work. -/

def easyBits : UInt32 := 0x2100ffff

def sampleGenesis : Block :=
  ⟨⟨1, Hash256.zero, Hash256.zero, Hash256.zero, 0, easyBits, 0⟩, [Transaction.newCoinbase 0 [⟨0, [0x6a]⟩]]⟩

theorem sampleGenesis_applies (H : Hasher) :
    UtxoSet.applyBlock H UtxoSet.new sampleGenesis.transactions 0 = .ok (UtxoSet.new, 0) := rfl

def sampleStart (H : Hasher) : ChainState := ⟨ChainTree.new H sampleGenesis, UtxoSet.new⟩

/-- The block of these transactions on a block that left `parentUtxo`. -/
def mined (H : Hasher) (previous : Hash256) (parentUtxo : UtxoSet) (height timestamp : UInt64) (txs : List Transaction) :
    Block :=
  let root := match UtxoSet.applyBlock H parentUtxo txs height with
    | .ok (u, _) => u.computeUtxoRoot H
    | .error _ => Hash256.zero
  ⟨⟨1, previous, H (txs.flatMap fun t => (t.txid H).bytes), root, timestamp, easyBits, 0⟩, txs⟩

/-- A coinbase that pays to a script anyone can satisfy. -/
def sampleCoinbase : Transaction := Transaction.newCoinbase 1 [⟨2500000000, [0x51]⟩]

/-- It spends the coinbase's output, and keeps nothing. -/
def sampleSpend (H : Hasher) : Transaction :=
  ⟨transactionVersion1, [TxIn.new ⟨sampleCoinbase.txid H, 0⟩ []], [⟨0, [0x6a]⟩], 0⟩

def sampleBlock (H : Hasher) : Block := mined H (sampleGenesis.header.hash H) UtxoSet.new 1 60 [sampleCoinbase]

/-- A block that spends its own coinbase. -/
def spendingBlock (H : Hasher) : Block :=
  mined H (sampleGenesis.header.hash H) UtxoSet.new 1 60 [sampleCoinbase, sampleSpend H]

set_option maxRecDepth 10000 in
theorem utxo_is_replay_sample :
    let st := (processBlock Blake3.digest (some 1000) (sampleStart Blake3.digest) (sampleBlock Blake3.digest)).1
    st.tree.canonicalTip = (sampleBlock Blake3.digest).header.hash Blake3.digest ∧
      replay Blake3.digest UtxoSet.new (st.tree.getPathFromGenesis st.tree.canonicalTip) = .ok st.utxo :=
  ⟨by decide +kernel, (utxo_is_replay (sampleGenesis_applies _) (.process .start _ _ _ trivial)).1.2⟩

end Scytale
