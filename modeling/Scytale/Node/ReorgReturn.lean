/-
  Scytale.Node.ReorgReturn — what a reorganisation loses, and what the pool takes back
  (crates/scytale-consensus/src/chain.rs, crates/scytale-mempool/src/pool.rs).

  `transactions_for_mempool` lists the disconnected blocks from the old tip down, so a
  transaction comes before those of lower blocks that it spends; the pool goes through the list
  once.
  - `lost_iff`: the list is that of the transactions lost.
  - `returned_iff_settled`: the pool has all that it can take back exactly when each is listed
    after those it needs.
  - `child_not_returned`: a transaction and, in the block after it, one that spends it.
-/
import Scytale.Consensus.Convergence
import Scytale.Mempool.Readmission

namespace Scytale

open Lib

/-- A transaction of the disconnected blocks, no coinbase, that the connected ones do not have. -/
structure ReorgResult.Lost (H : Hasher) (r : ReorgResult) (t : Transaction) : Prop where
  disconnected : ∃ b ∈ r.disconnectedBlocks, t ∈ b.transactions
  regular : t.isCoinbase = false
  unconnected : ∀ b ∈ r.connectedBlocks, ∀ t' ∈ b.transactions, t'.txid H ≠ t.txid H

variable {H : Hasher} {genesis : Block}

/-! ## The list -/

theorem Block.validateRest_ok {txs : List Transaction} : ∀ {idx : Nat}, validateRest idx txs = .ok () →
    ∀ t ∈ txs, t.isCoinbase = false ∧ t.validateStateless = .ok () := by
  induction txs with
  | nil => intro idx _ t ht; cases ht
  | cons tx txs ih =>
    intro idx h
    unfold validateRest at h
    split at h
    · cases h
    · rename_i hcb
      split at h
      · cases h
      · rename_i hv
        exact List.forall_mem_cons.mpr ⟨⟨by simpa using hcb, hv⟩, ih h⟩

theorem Block.validateStructure_ok {b : Block} (h : b.validateStructure = .ok ()) : ∃ cb txs, b.transactions = cb :: txs ∧
    cb.isCoinbase = true ∧ ∀ t ∈ txs, t.isCoinbase = false ∧ t.validateStateless = .ok () := by
  unfold validateStructure at h
  split at h
  · cases h
  · rename_i cb txs htxs
    split at h
    · cases h
    · rename_i hcb
      exact ⟨cb, txs, htxs, by simpa using hcb, validateRest_ok h⟩

/-- A block that leaves is stored under its parent: the genesis block is an ancestor of all. -/
theorem TreeInv.left_child {t : ChainTree} (h : TreeInv H genesis t) {tip ancestor : Hash256} {n : BlockNode}
    (htip : t.getNode tip = some n) (hanc : ancestor ∈ (t.walkBack tip).map (·.1)) {x : BlockNode}
    (hx : x ∈ t.walkUpto tip ancestor) : ∃ p, Child H t p x := by
  obtain ⟨y, hy, rfl⟩ := List.mem_map.mp hx
  have hsplit := Ancestry.chain_upto h.rooted htip hanc
  have hmem : y ∈ t.walkBack tip := by
    rw [ChainTree.walkBack, hsplit]
    exact List.mem_append_left _ hy
  have hstored := Ancestry.mem_chain h.rooted htip y hmem
  obtain ⟨z, hz, rfl⟩ := List.mem_map.mp hanc
  have hroot := Ancestry.root_mem_chain h.rooted (Ancestry.mem_chain h.rooted htip z hz)
  have hnd := Ancestry.chain_nodup h.rooted htip
  rw [hsplit, List.map_append] at hnd
  refine (h.child hstored fun heq => ?_).2
  exact (List.nodup_append.mp hnd).2.2 _ (List.mem_map.mpr ⟨y, hy, rfl⟩) _ hroot heq

section
variable {st chain : ChainState} {r : ReorgResult} {v : Verifier} {now : Option UInt64} {b : Block}

/-- The disconnected blocks are stored under their parents, and the list is made from them. -/
theorem reorg_disconnected (htree : TreeInv H genesis st.tree)
    (hproc : processBlockWithVerifier H v now st b = (chain, .ok (some r))) :
    (∀ d ∈ r.disconnectedBlocks, d.validateStructure = .ok () ∧ d.encodable = true) ∧
      r.transactionsForMempool = transactionsForMempool H r.disconnectedBlocks r.connectedBlocks := by
  have o := process_outcome H v now st b
  rw [hproc] at o
  cases o with
  | switched parent node tip pu adm ancestor staged utxo r hnode htip hlt conn hdisc hconn hpool =>
    refine ⟨fun d hd => ?_, hpool⟩
    obtain ⟨c, hfound, hca, -⟩ := ChainTree.findCommonAncestor_spec htree.rooted htip (adm.isChild hnode).parent_stored
    rw [conn.found] at hfound
    cases hfound
    rw [hdisc] at hd
    obtain ⟨x, hx, rfl⟩ := List.mem_map.mp hd
    obtain ⟨p, hchild⟩ := htree.left_child htip hca hx
    exact ⟨hchild.structured, hchild.encodable⟩

theorem lost_iff (htree : TreeInv H genesis st.tree)
    (hproc : processBlockWithVerifier H v now st b = (chain, .ok (some r))) (t : Transaction) :
    r.Lost H t ↔ t ∈ r.transactionsForMempool ∧ t.isCoinbase = false := by
  obtain ⟨hdisc, hpool⟩ := reorg_disconnected htree hproc
  have hnot : (r.connectedBlocks.flatMap fun b => b.transactions.map fun t => t.txid H).contains (t.txid H) = false ↔
      ∀ b ∈ r.connectedBlocks, ∀ t' ∈ b.transactions, t'.txid H ≠ t.txid H := by
    rw [← Bool.not_eq_true, List.contains_iff_mem, List.mem_flatMap]
    simp only [List.mem_map, not_exists, not_and, ne_eq]
  rw [hpool, transactionsForMempool]
  simp only [List.mem_flatMap, List.mem_filter, Bool.not_eq_true', hnot]
  constructor
  · rintro ⟨⟨d, hd, ht⟩, hcb, hun⟩
    obtain ⟨cb, txs, htxs, hfirst, -⟩ := Block.validateStructure_ok (hdisc d hd).1
    refine ⟨⟨d, hd, ?_, hun⟩, hcb⟩
    rw [htxs] at ht ⊢
    rcases List.mem_cons.mp ht with rfl | ht
    · rw [hfirst] at hcb
      cases hcb
    · exact ht
  · rintro ⟨⟨d, hd, ht, hun⟩, hcb⟩
    exact ⟨⟨d, hd, List.mem_of_mem_tail ht⟩, hcb, hun⟩

/-- What is lost was valid in its block. -/
theorem lost_valid (htree : TreeInv H genesis st.tree)
    (hproc : processBlockWithVerifier H v now st b = (chain, .ok (some r))) {t : Transaction} (h : r.Lost H t) :
    t.validateStateless = .ok () ∧ t.encodable = true := by
  obtain ⟨d, hd, ht⟩ := h.disconnected
  obtain ⟨hstruct, henc⟩ := (reorg_disconnected htree hproc).1 d hd
  refine ⟨?_, List.all_eq_true.mp henc t ht⟩
  obtain ⟨cb, txs, htxs, hfirst, hrest⟩ := Block.validateStructure_ok hstruct
  rw [htxs] at ht
  rcases List.mem_cons.mp ht with rfl | ht
  · have hcb := h.regular
    rw [hfirst] at hcb
    cases hcb
  · exact (hrest t ht).2

/-- A reorganisation with room in the pool for all it returns: every lost transaction that can
    be taken back is in the pool after `on_reorg`, exactly when each of them comes in the list
    after those whose outputs it needs. -/
theorem returned_iff_settled {utxo : UtxoSet} (hr : Reach H anyResult ⟨ChainTree.new H genesis, utxo⟩ st)
    (hproc : processBlockWithVerifier H v now st b = (chain, .ok (some r))) {m : Mempool} (hm : PoolRun H PoolOp.Fits m)
    (hids : DistinctIds H (m.transactions ++ r.transactionsForMempool))
    (hroom : SpareCapacity H m chain.utxo r.transactionsForMempool) (verifier : AuthorizationVerifier) (ts : UInt64) :
    (∀ t, Readmissible H verifier ts m chain.utxo (r.Lost H) t →
        (m.onReorg H r.transactionsForMempool chain.utxo verifier ts).1.Holds H t) ↔
      ∀ t, Readmissible H verifier ts m chain.utxo (r.Lost H) t →
        t.txid H ∈ OnePass.settle (Transaction.txid H) (Transaction.needs chain.utxo) m.ids r.transactionsForMempool := by
  have htree := reach_treeInv hr
  have heach : ∀ t, Readmissible H verifier ts m chain.utxo (r.Lost H) t →
      ((m.onReorg H r.transactionsForMempool chain.utxo verifier ts).1.Holds H t ↔
        t.txid H ∈ OnePass.settle (Transaction.txid H) (Transaction.needs chain.utxo) m.ids r.transactionsForMempool) :=
    fun t ht => Mempool.readmitted_iff hm.coherent hids hroom (lost_iff htree hproc) (fun _ hl => lost_valid htree hproc hl) ht
  exact forall₂_congr heach

end

/-! ### A transaction, and one that spends it -/

/-- It spends the first coinbase's output. -/
def lostParent (H : Hasher) : Transaction := payOn ⟨sampleCoinbase.txid H, 0⟩ 2499990000

/-- It spends the parent's. -/
def lostChild (H : Hasher) : Transaction := payOn ⟨(lostParent H).txid H, 0⟩ 2499980000

/-- Blocks mined one on the other, each with its time and its transactions. -/
def mineBranch (H : Hasher) : ChainState → List (UInt64 × List Transaction) → List Block
  | _, [] => []
  | st, (timestamp, txs) :: rest =>
    let block := mined H st.tree.canonicalTip st.utxo (st.tree.canonicalHeight + 1) timestamp txs
    block :: mineBranch H (processBlock H (some 1000) st block).1 rest

theorem reach_processAll {v : Verifier} {now : Option UInt64} {init : ChainState} (blocks : List Block) :
    ∀ {st : ChainState}, Reach H anyResult init st → Reach H anyResult init (processAll H v now st blocks) := by
  induction blocks with
  | nil => intro st h; exact h
  | cons b blocks ih => intro st h; exact ih (.process h v now b trivial)

def coinbaseAt (height : UInt64) : Transaction := Transaction.newCoinbase height [⟨2500000000, [0x51]⟩]

/-- The child is confirmed a block after its parent. -/
def oldBranch (H : Hasher) : List (UInt64 × List Transaction) :=
  [(60, [sampleCoinbase, lostParent H]), (120, [coinbaseAt 2, lostChild H])]

/-- The blocks beside them pay the same first coinbase, and confirm neither. -/
def newBranch : List (UInt64 × List Transaction) := [(61, [sampleCoinbase]), (121, [coinbaseAt 2]), (181, [coinbaseAt 3])]

/-- The state that took `n` blocks of the old branch and as many of the new one. -/
def forked (H : Hasher) (n : Nat) : ChainState :=
  processAll H (authoritativeTransactionVerifier H) (some 1000) (sampleStart H)
    (mineBranch H (sampleStart H) ((oldBranch H).take n) ++ mineBranch H (sampleStart H) (newBranch.take n))

/-- The next block of the new branch makes it the heavier one. -/
def heaviest (H : Hasher) (n : Nat) : Block :=
  ((mineBranch H (sampleStart H) (newBranch.take (n + 1))).getLast?).getD (sampleBlock H)

/-- What the old branch loses when the tip moves. -/
def takenOff (H : Hasher) (n : Nat) : Option (List Transaction) :=
  match (processBlock H (some 1000) (forked H n) (heaviest H n)).2 with
  | .ok (some r) => some r.transactionsForMempool
  | _ => none

theorem takenOff_eq {n : Nat} {lost : List Transaction} (h : takenOff H n = some lost) : ∃ r,
    processBlock H (some 1000) (forked H n) (heaviest H n) =
      ((processBlock H (some 1000) (forked H n) (heaviest H n)).1, .ok (some r)) ∧ r.transactionsForMempool = lost := by
  unfold takenOff at h
  split at h
  · rename_i r hr
    exact ⟨r, Prod.ext rfl hr, Option.some.inj h⟩
  · cases h

theorem reach_forked (n : Nat) : Reach H anyResult (sampleStart H) (forked H n) := reach_processAll _ .start

/-- The set after the reorganisation. -/
def reorgUtxo (H : Hasher) (n : Nat) : UtxoSet := (processBlock H (some 1000) (forked H n) (heaviest H n)).1.utxo

def acceptsAll : AuthorizationVerifier := fun _ _ _ => .ok ()

/-- The first coinbase's output is unspent, and the parent's is not there. -/
structure CoinbaseOnly (u : UtxoSet) : Prop where
  coinbase : u.entries[(⟨sampleCoinbase.txid Blake3.digest, 0⟩ : OutPoint)]? = some ⟨⟨2500000000, [0x51]⟩, 1, true⟩
  parent : u.entries[(⟨(lostParent Blake3.digest).txid Blake3.digest, 0⟩ : OutPoint)]? = none

section
variable {u : UtxoSet}

theorem lostParent_previousOutputs : (lostParent Blake3.digest).previousOutputs = [⟨sampleCoinbase.txid Blake3.digest, 0⟩] := rfl

theorem lostChild_previousOutputs : (lostChild Blake3.digest).previousOutputs = [⟨(lostParent Blake3.digest).txid Blake3.digest, 0⟩] := rfl

theorem CoinbaseOnly.parent_needs (h : CoinbaseOnly u) : (lostParent Blake3.digest).needs u = [] := by
  have hin := (Table.contains_iff _ _).mpr ⟨_, h.coinbase⟩
  rw [Transaction.needs, lostParent_previousOutputs, List.filter_cons_of_neg (by simp [hin])]
  rfl

theorem CoinbaseOnly.parent_settled (h : CoinbaseOnly u) (known : List Hash256) :
    (lostParent Blake3.digest).txid Blake3.digest ∈ OnePass.settle (Transaction.txid Blake3.digest) (Transaction.needs u)
      known [lostParent Blake3.digest] := by
  rw [OnePass.settle, OnePass.settle, h.parent_needs, if_pos (by simp)]
  exact List.mem_cons_self

theorem CoinbaseOnly.child_needs (h : CoinbaseOnly u) :
    (lostChild Blake3.digest).needs u = [(lostParent Blake3.digest).txid Blake3.digest] := by
  have hout := (Table.not_contains_iff _ _).mpr h.parent
  rw [Transaction.needs, lostChild_previousOutputs, List.filter_cons_of_pos (by simp [hout])]
  rfl

set_option maxRecDepth 10000 in
theorem lost_apart : (lostParent Blake3.digest).txid Blake3.digest ≠ (lostChild Blake3.digest).txid Blake3.digest ∧
    sampleCoinbase.txid Blake3.digest ≠ (lostParent Blake3.digest).txid Blake3.digest := by decide +kernel

set_option maxRecDepth 10000 in
theorem CoinbaseOnly.parent_readmissible (h : CoinbaseOnly u) {lost : Transaction → Prop}
    (hlost : ∀ t, lost t → t = lostChild Blake3.digest ∨ t = lostParent Blake3.digest) (hself : lost (lostParent Blake3.digest)) :
    Readmissible Blake3.digest acceptsAll 100 (smallPool 10) u lost (lostParent Blake3.digest) := by
  have hunspent : ∀ o ∈ (lostParent Blake3.digest).previousOutputs, u.entries[o]? ≠ none := by
    intro o ho
    rw [lostParent_previousOutputs, List.mem_singleton] at ho
    rw [ho, h.coinbase]
    exact Option.some_ne_none _
  refine @Readmissible.intro _ _ _ _ _ _ _ [⟨⟨2500000000, [0x51]⟩, 1, true⟩] _ (fun _ => sampleCoinbase) hself ?_
    ⟨by decide +kernel, 2500000000, 2499990000, by decide, by decide, by decide, rfl, UInt64.zero_le⟩ ?_ ?_
    (fun o ho hu => absurd hu (hunspent o ho)) (fun o ho hu => absurd hu (hunspent o ho))
  · simp only [lostParent_previousOutputs, List.map_cons, List.map_nil, resolveWith, h.coinbase]
  · intro id e he
    have he : (∅ : Table Hash256 MempoolEntry)[id]? = some e := he
    rw [Table.get_empty] at he
    cases he
  · intro t ht o ho hot
    rcases hlost t ht with rfl | rfl
    · rw [lostParent_previousOutputs, List.mem_singleton] at ho
      rw [lostChild_previousOutputs, List.mem_singleton, ho] at hot
      exact absurd (congrArg OutPoint.txid hot) lost_apart.2
    · rfl

set_option maxRecDepth 10000 in
theorem CoinbaseOnly.child_readmissible (h : CoinbaseOnly u) {lost : Transaction → Prop}
    (hlost : ∀ t, lost t ↔ t = lostChild Blake3.digest ∨ t = lostParent Blake3.digest) :
    Readmissible Blake3.digest acceptsAll 100 (smallPool 10) u lost (lostChild Blake3.digest) := by
  refine @Readmissible.intro _ _ _ _ _ _ _ [⟨⟨2499990000, [0x51]⟩, 0, false⟩] _ (fun _ => lostParent Blake3.digest)
    ((hlost _).mpr (.inl rfl)) ?_
    ⟨by decide +kernel, 2499990000, 2499980000, by decide, by decide, by decide, rfl, UInt64.zero_le⟩ ?_ ?_ ?_ ?_
  · simp only [lostChild_previousOutputs, List.map_cons, List.map_nil, resolveWith, h.parent]
    rfl
  · intro id e he
    have he : (∅ : Table Hash256 MempoolEntry)[id]? = some e := he
    rw [Table.get_empty] at he
    cases he
  · intro t ht o ho hot
    rcases (hlost t).mp ht with rfl | rfl
    · rfl
    · rw [lostChild_previousOutputs, List.mem_singleton] at ho
      rw [lostParent_previousOutputs, List.mem_singleton, ho] at hot
      exact absurd (congrArg OutPoint.txid hot).symm lost_apart.2
  · intro o ho _
    rw [lostChild_previousOutputs, List.mem_singleton] at ho
    rw [ho]
  · intro o _ _
    exact h.parent_readmissible (fun t ht => (hlost t).mp ht) ((hlost _).mpr (.inr rfl))

theorem CoinbaseOnly.spare (h : CoinbaseOnly u) {returned : List Transaction} (hlen : returned.length ≤ 10)
    (hmem : ∀ t ∈ returned, t = lostChild Blake3.digest ∨ t = lostParent Blake3.digest)
    (hbytes : (returned.map Transaction.encodedSize).sum ≤ 10000) :
    SpareCapacity Blake3.digest (smallPool 10) u returned := by
  have hneeds : ∀ t ∈ returned, ∀ p ∈ t.needs u, t = lostChild Blake3.digest ∧ p = (lostParent Blake3.digest).txid Blake3.digest := by
    intro t ht p hp
    rcases hmem t ht with rfl | rfl
    · rw [h.child_needs, List.mem_singleton] at hp
      exact ⟨rfl, hp⟩
    · rw [h.parent_needs] at hp
      cases hp
  have hnone : ∀ a b, ¬Table.Linked (∅ : Table Hash256 TxidSet) a b := Table.not_linked_empty
  refine ⟨?_, ?_, ?_, fun t ht => ⟨[(lostParent Blake3.digest).txid Blake3.digest], by decide, fun p hp => ?_, ?_⟩,
    fun t ht p hp => ⟨[], by decide, fun c hc => ?_⟩⟩
  · show 0 + returned.length ≤ 10
    omega
  · show 0 + (returned.map Transaction.encodedSize).sum ≤ 10000
    omega
  · show 0 + (returned.map Transaction.encodedSize).sum < 2 ^ 64
    omega
  · rw [(hneeds t ht p hp).2]
    exact List.mem_singleton.mpr rfl
  · rintro c hc p (hup | ⟨t', ht', heq, hp⟩)
    · exact absurd hup (hnone c p)
    · rw [List.mem_singleton.mp hc, (hneeds t' ht' p hp).1] at heq
      exact absurd heq.symm lost_apart.1
  · rcases hc with hdown | ⟨hne, t', ht', heq, hp'⟩
    · exact absurd hdown (hnone p c)
    · rw [(hneeds t' ht' p hp').1, ← (hneeds t ht p hp).1] at heq
      exact absurd heq.symm hne

end

set_option maxRecDepth 10000 in
/-- The old branch of one block: the parent alone is lost, and it is back. -/
theorem returned_iff_settled_one :
    ((smallPool 10).onReorg Blake3.digest [lostParent Blake3.digest] (reorgUtxo Blake3.digest 1) acceptsAll 100).1.Holds
      Blake3.digest (lostParent Blake3.digest) := by
  have hrun : takenOff Blake3.digest 1 = some [lostParent Blake3.digest] ∧
      (reorgUtxo Blake3.digest 1).entries[(⟨sampleCoinbase.txid Blake3.digest, 0⟩ : OutPoint)]? =
        some ⟨⟨2500000000, [0x51]⟩, 1, true⟩ ∧
      (reorgUtxo Blake3.digest 1).entries[(⟨(lostParent Blake3.digest).txid Blake3.digest, 0⟩ : OutPoint)]? = none := by
    decide +kernel
  obtain ⟨htaken, hcoinbase, hparent⟩ := hrun
  have hset : CoinbaseOnly (reorgUtxo Blake3.digest 1) := ⟨hcoinbase, hparent⟩
  obtain ⟨r, hproc, hpool⟩ := takenOff_eq htaken
  have hlost := lost_iff (reach_treeInv (reach_forked 1)) hproc
  rw [hpool] at hlost
  have honly : ∀ t, r.Lost Blake3.digest t → t = lostParent Blake3.digest := fun t ht =>
    List.mem_singleton.mp ((hlost t).mp ht).1
  have hself : r.Lost Blake3.digest (lostParent Blake3.digest) := (hlost _).mpr ⟨List.mem_singleton.mpr rfl, by decide⟩
  have hspare : SpareCapacity Blake3.digest (smallPool 10) (reorgUtxo Blake3.digest 1) r.transactionsForMempool := by
    rw [hpool]
    exact hset.spare (by decide) (fun t ht => .inr (List.mem_singleton.mp ht)) (by decide +kernel)
  have hids : DistinctIds Blake3.digest ((smallPool 10).transactions ++ r.transactionsForMempool) := by
    rw [hpool]
    decide +kernel
  rw [← hpool]
  refine (returned_iff_settled (reach_forked 1) hproc (.empty 10 10000 0) hids hspare acceptsAll 100).mpr (fun t ht => ?_)
    _ (hset.parent_readmissible (fun t ht => .inr (honly t ht)) hself)
  obtain ⟨-, hl, -⟩ := ht
  rw [honly t hl, hpool]
  exact hset.parent_settled _

set_option maxRecDepth 10000 in
/-- The old branch of two blocks: the child is listed before its parent. Both could be taken
    back, and only the parent is. -/
theorem child_not_returned : ∃ r,
    processBlock Blake3.digest (some 1000) (forked Blake3.digest 2) (heaviest Blake3.digest 2) =
      ((processBlock Blake3.digest (some 1000) (forked Blake3.digest 2) (heaviest Blake3.digest 2)).1, .ok (some r)) ∧
    Reach Blake3.digest anyResult (sampleStart Blake3.digest) (forked Blake3.digest 2) ∧
    PoolRun Blake3.digest PoolOp.Fits (smallPool 10) ∧
    DistinctIds Blake3.digest ((smallPool 10).transactions ++ r.transactionsForMempool) ∧
    SpareCapacity Blake3.digest (smallPool 10) (reorgUtxo Blake3.digest 2) r.transactionsForMempool ∧
    Readmissible Blake3.digest acceptsAll 100 (smallPool 10) (reorgUtxo Blake3.digest 2) (r.Lost Blake3.digest)
      (lostChild Blake3.digest) ∧
    ¬((smallPool 10).onReorg Blake3.digest r.transactionsForMempool (reorgUtxo Blake3.digest 2) acceptsAll 100).1.Holds
      Blake3.digest (lostChild Blake3.digest) := by
  have hrun : takenOff Blake3.digest 2 = some [lostChild Blake3.digest, lostParent Blake3.digest] ∧
      (reorgUtxo Blake3.digest 2).entries[(⟨sampleCoinbase.txid Blake3.digest, 0⟩ : OutPoint)]? =
        some ⟨⟨2500000000, [0x51]⟩, 1, true⟩ ∧
      (reorgUtxo Blake3.digest 2).entries[(⟨(lostParent Blake3.digest).txid Blake3.digest, 0⟩ : OutPoint)]? = none ∧
      ((smallPool 10).onReorg Blake3.digest [lostChild Blake3.digest, lostParent Blake3.digest] (reorgUtxo Blake3.digest 2)
        acceptsAll 100).1.entries[(lostChild Blake3.digest).txid Blake3.digest]? = none := by
    decide +kernel
  obtain ⟨htaken, hcoinbase, hparent, hgone⟩ := hrun
  have hset : CoinbaseOnly (reorgUtxo Blake3.digest 2) := ⟨hcoinbase, hparent⟩
  obtain ⟨r, hproc, hpool⟩ := takenOff_eq htaken
  have hlost : ∀ t, r.Lost Blake3.digest t ↔ t = lostChild Blake3.digest ∨ t = lostParent Blake3.digest := by
    intro t
    rw [lost_iff (reach_treeInv (reach_forked 2)) hproc, hpool, List.mem_cons, List.mem_singleton]
    refine and_iff_left_of_imp ?_
    rintro (rfl | rfl) <;> decide
  refine ⟨r, hproc, reach_forked 2, .empty 10 10000 0, ?_, ?_, hset.child_readmissible hlost, ?_⟩
  · rw [hpool]
    decide +kernel
  · rw [hpool]
    refine hset.spare (by decide) (fun t ht => ?_) (by decide +kernel)
    rwa [List.mem_cons, List.mem_singleton] at ht
  · rintro ⟨e, he, -⟩
    rw [hpool, hgone] at he
    cases he

end Scytale
