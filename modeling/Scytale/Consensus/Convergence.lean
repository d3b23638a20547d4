/-
  Scytale.Consensus.Convergence — the order in which blocks arrive does not change the work
  of the chain they end in.

  `Good` says, without reference to a run, which chains over a set of blocks are valid all
  the way: every block passes, on the ones before it, each check a call can make. A run
  over the set, in any order that puts parents first, keeps `ConvInv`: the tip's chain is
  good, every good chain whose last block was processed is stored, and no block of a good
  chain is marked invalid. What else is stored (blocks on branches that were never
  connected) or marked depends on the order.
  - `connectNodes_good` / `good_of_connectNodes`: a branch connects on a good chain exactly
    when it makes a good chain.
  - `step_convInv` / `run_convInv`: the invariant along a run.
  - `convergence`: two runs end in chains of equal work, since the tip of each is good and
    so stored in the other.
-/
import Scytale.Consensus.ForkChoice

namespace Scytale

open Lib

/-- Block `b` passes the checks on top of the chain `π` that are made before its branch is
    connected; `n` is its node. -/
structure Ready (H : Hasher) (now : Option UInt64) (genesis : Block) (S : List Block) (π : List BlockNode)
    (p : BlockNode) (b : Block) (n : BlockNode) : Prop where
  last : π.getLast? = some p
  mem : b ∈ S
  not_genesis : b.header.hash H ≠ genesis.header.hash H
  prev : b.header.previousBlockHash = p.hash
  structured : b.validateStructure = .ok ()
  header : checkHeader H π p b.header now = .ok ()
  median : checkMedianTime (π.map (·.block.header)) b.header = .ok ()
  encodable : b.encodable = true
  node : newNode H p b = some n

/-- The chains over `S` that are valid all the way. -/
inductive Good (H : Hasher) (v : Verifier) (now : Option UInt64) (genesis : Block) (S : List Block) :
    List BlockNode → Prop where
  | root : Good H v now genesis S [genesisNode H genesis]
  | extend {π : List BlockNode} {p n : BlockNode} {b : Block} {pu u : UtxoSet} (h : Good H v now genesis S π)
      (ready : Ready H now genesis S π p b n) (hrep : replay H UtxoSet.new π = .ok pu)
      (hconn : connectNode H (π.map (·.block.header)) v pu n = .ok u) : Good H v now genesis S (π ++ [n])

section
variable {H : Hasher} {v : Verifier} {now : Option UInt64} {genesis : Block} {S : List Block}

theorem Ready.node_eq {π : List BlockNode} {p n : BlockNode} {b : Block} (h : Ready H now genesis S π p b n) :
    n.hash = b.header.hash H ∧ n.parentHash = b.header.previousBlockHash ∧ n.block = b := by
  obtain ⟨h1, h2, -, h4, -⟩ := newNode_eq h.node
  exact ⟨h1, h2, h4⟩

theorem connectNode_authoritative {hs : List BlockHeader} {s s' : UtxoSet} {n : BlockNode}
    (h : connectNode H hs v s n = .ok s') :
    ∃ fees, validateBlockAuthoritativeWithHeaders H n.block n.height s hs = .ok fees := by
  unfold connectNode at h
  split at h
  · cases h
  · rename_i fees hval
    exact ⟨fees, hval⟩

namespace Good

theorem ne_nil {π : List BlockNode} (h : Good H v now genesis S π) : π ≠ [] := by
  cases h <;> simp

/-- A good chain is the genesis block alone, or ends in a block that was ready on a good
    chain and connected there. -/
theorem snoc {π : List BlockNode} {n : BlockNode} (h : Good H v now genesis S (π ++ [n])) (hne : π ≠ []) :
    Good H v now genesis S π ∧ ∃ p b pu u, Ready H now genesis S π p b n ∧ replay H UtxoSet.new π = .ok pu ∧
      connectNode H (π.map (·.block.header)) v pu n = .ok u := by
  generalize hx : π ++ [n] = ρ at h
  cases h with
  | root =>
    have : π.length + 1 = 1 := by simpa using congrArg List.length hx
    exact absurd (List.eq_nil_of_length_eq_zero (by omega)) hne
  | extend h ready hrep hconn =>
    obtain ⟨rfl, hn⟩ := List.append_inj' hx rfl
    cases hn
    exact ⟨h, _, _, _, _, ready, hrep, hconn⟩

theorem cases_last {π : List BlockNode} {n : BlockNode} (h : Good H v now genesis S π) (hl : π.getLast? = some n) :
    (π = [genesisNode H genesis] ∧ n = genesisNode H genesis) ∨
      ∃ π₀ p b pu u, π = π₀ ++ [n] ∧ Good H v now genesis S π₀ ∧ Ready H now genesis S π₀ p b n ∧
        replay H UtxoSet.new π₀ = .ok pu ∧ connectNode H (π₀.map (·.block.header)) v pu n = .ok u := by
  cases h with
  | root => exact Or.inl ⟨rfl, (Option.some.inj hl).symm⟩
  | @extend π₀ p m b pu u h ready hrep hconn =>
    rw [List.getLast?_concat] at hl
    cases hl
    exact Or.inr ⟨π₀, p, b, pu, u, rfl, h, ready, hrep, hconn⟩

theorem take {β : List BlockNode} : ∀ {α : List BlockNode}, Good H v now genesis S (α ++ β) → α ≠ [] →
    Good H v now genesis S α := by
  induction β using List.reverseRecOn with
  | nil => intro α h _; simpa using h
  | append_singleton β n ih =>
    intro α h hne
    rw [← List.append_assoc] at h
    exact ih (h.snoc (by simp [hne])).1 hne

end Good

/-! ## Connecting a branch -/

variable {t : ChainTree}

/-- The rest of a good chain connects on its beginning. -/
theorem connectNodes_good {β : List BlockNode} : ∀ {α : List BlockNode} {s : UtxoSet}, Good H v now genesis S (α ++ β) →
    α ≠ [] → (∀ β₁ m β₂, β = β₁ ++ m :: β₂ → t.getPathFromGenesis m.parentHash = α ++ β₁) →
    replay H UtxoSet.new α = .ok s → ∃ u, connectNodes H t v s β = .ok u := by
  induction β with
  | nil => intro α s _ _ _ _; exact ⟨s, rfl⟩
  | cons n β ih =>
    intro α s h hne hpath hrep
    have hassoc : α ++ n :: β = (α ++ [n]) ++ β := by simp
    have hn : Good H v now genesis S (α ++ [n]) := by
      rw [hassoc] at h
      exact h.take (by simp)
    obtain ⟨-, p, b, pu, u, -, hrep', hconn⟩ := hn.snoc hne
    rw [hrep] at hrep'
    cases hrep'
    have hheaders : t.headersTo n.parentHash = α.map (·.block.header) := by
      rw [ChainTree.headersTo, hpath [] n β rfl, List.append_nil]
    rw [connectNodes, hheaders, hconn]
    refine ih (α := α ++ [n]) (by rw [← hassoc]; exact h) (by simp) ?_ (replay_append_ok hrep (connectNode_replay hconn))
    intro β₁ m β₂ hβ
    rw [hpath (n :: β₁) m β₂ (by rw [hβ]; rfl)]
    simp

/-- A branch of ready blocks that connects on a good chain makes a good chain. -/
theorem good_of_connectNodes {β : List BlockNode} : ∀ {α : List BlockNode} {s u : UtxoSet}, Good H v now genesis S α →
    (∀ β₁ m β₂, β = β₁ ++ m :: β₂ → t.getPathFromGenesis m.parentHash = α ++ β₁ ∧
      ∃ p b, Ready H now genesis S (α ++ β₁) p b m) →
    replay H UtxoSet.new α = .ok s → connectNodes H t v s β = .ok u → Good H v now genesis S (α ++ β) := by
  induction β with
  | nil => intro α s u h _ _ _; simpa using h
  | cons n β ih =>
    intro α s u h hready hrep hconn
    unfold connectNodes at hconn
    split at hconn
    · cases hconn
    · rename_i s' hs'
      obtain ⟨hpath, p, b, hr⟩ := hready [] n β rfl
      rw [List.append_nil] at hpath hr
      rw [ChainTree.headersTo, hpath] at hs'
      have hgood := Good.extend h hr hrep hs'
      have hassoc : α ++ n :: β = (α ++ [n]) ++ β := by simp
      rw [hassoc]
      refine ih hgood ?_ (replay_append_ok hrep (connectNode_replay hs')) hconn
      intro β₁ m β₂ hβ
      have := hready (n :: β₁) m β₂ (by rw [hβ]; rfl)
      simpa using this

/-- Where a branch stops connecting, the chain is not good. -/
theorem bad_of_connectNodes (now : Option UInt64) (genesis : Block) (S : List Block) {β : List BlockNode} :
    ∀ {α : List BlockNode} {s : UtxoSet} {bad : Hash256} {e : ChainError},
    α ≠ [] → (∀ β₁ m β₂, β = β₁ ++ m :: β₂ → t.getPathFromGenesis m.parentHash = α ++ β₁) →
    replay H UtxoSet.new α = .ok s → connectNodes H t v s β = .error (bad, e) →
    ∃ β₁ m β₂, β = β₁ ++ m :: β₂ ∧ bad = m.hash ∧ ¬ Good H v now genesis S (α ++ β₁ ++ [m]) := by
  induction β with
  | nil => intro α s bad e _ _ _ h; cases h
  | cons n β ih =>
    intro α s bad e hne hpath hrep h
    have hheaders : t.headersTo n.parentHash = α.map (·.block.header) := by
      rw [ChainTree.headersTo, hpath [] n β rfl, List.append_nil]
    unfold connectNodes at h
    split at h
    · rename_i e' he'
      cases h
      refine ⟨[], n, β, rfl, rfl, fun hgood => ?_⟩
      rw [List.append_nil] at hgood
      obtain ⟨-, p, b, pu, u, -, hrep', hconn⟩ := hgood.snoc hne
      rw [hrep] at hrep'
      cases hrep'
      rw [hheaders, hconn] at he'
      cases he'
    · rename_i s' hs'
      have hpath' : ∀ β₁ m β₂, β = β₁ ++ m :: β₂ → t.getPathFromGenesis m.parentHash = (α ++ [n]) ++ β₁ := by
        intro β₁ m β₂ hβ
        rw [hpath (n :: β₁) m β₂ (by rw [hβ]; rfl)]
        simp
      obtain ⟨β₁, m, β₂, hβ, hbad, hnot⟩ := ih (by simp) hpath' (replay_append_ok hrep (connectNode_replay hs')) h
      exact ⟨n :: β₁, m, β₂, by rw [hβ]; rfl, hbad, by simpa using hnot⟩

theorem TreeInv.path_last (h : TreeInv H genesis t) {k : Hash256} {x : BlockNode} (hk : t.getNode k = some x) :
    (t.getPathFromGenesis k).getLast? = some x := by
  by_cases hr : k = genesis.header.hash H
  · rw [hr] at hk ⊢
    rw [ChainTree.path_root h.rooted hk]
    rfl
  · rw [ChainTree.path_child h.rooted hk hr, List.getLast?_concat]

/-- On the path to a stored block, what stands before a block is its parent's path. -/
theorem TreeInv.path_before (h : TreeInv H genesis t) {δ : List BlockNode} : ∀ {γ : List BlockNode} {k : Hash256}
    {x m : BlockNode}, t.getNode k = some x → t.getPathFromGenesis k = γ ++ m :: δ → γ ≠ [] →
    t.getPathFromGenesis m.parentHash = γ ∧ t.getNode m.hash = some m ∧ m.hash ≠ genesis.header.hash H := by
  induction δ using List.reverseRecOn with
  | nil =>
    intro γ k x m hk hpath hne
    by_cases hr : k = genesis.header.hash H
    · rw [hr, ChainTree.path_root h.rooted h.root] at hpath
      have := congrArg List.length hpath
      simp at this
      exact absurd this hne
    · rw [ChainTree.path_child h.rooted hk hr] at hpath
      obtain ⟨h1, h2⟩ := List.append_inj' hpath rfl
      cases h2
      exact ⟨h1, by rw [h.hash_eq hk]; exact hk, by rw [h.hash_eq hk]; exact hr⟩
  | append_singleton δ y ih =>
    intro γ k x m hk hpath hne
    by_cases hr : k = genesis.header.hash H
    · rw [hr, ChainTree.path_root h.rooted h.root] at hpath
      have := congrArg List.length hpath
      simp at this
      omega
    · rw [ChainTree.path_child h.rooted hk hr] at hpath
      have hpath' : t.getPathFromGenesis x.parentHash ++ [x] = (γ ++ m :: δ) ++ [y] := by rw [hpath]; simp
      obtain ⟨h1, -⟩ := List.append_inj' hpath' rfl
      obtain ⟨-, p, hc⟩ := h.child hk hr
      exact ih hc.parent_stored h1 hne

/-! ## Ready blocks in a tree -/

/-- Every stored block but the genesis block was ready on its parent's path. -/
def AllReady (H : Hasher) (now : Option UInt64) (genesis : Block) (S : List Block) (t : ChainTree) : Prop :=
  ∀ k n, t.getNode k = some n → k ≠ genesis.header.hash H →
    ∃ p, Ready H now genesis S (t.getPathFromGenesis n.parentHash) p n.block n

section
variable {st : ChainState} {b : Block} {parent node : BlockNode} {pu : UtxoSet}

theorem Admitted.ready (adm : Admitted H now st b parent pu) (hnode : newNode H parent b = some node)
    (htree : TreeInv H genesis st.tree) (hmem : b ∈ S) :
    Ready H now genesis S (st.tree.getPathFromGenesis node.parentHash) parent b node := by
  have hpar := (adm.isChild hnode).parent_stored
  have hprev : node.parentHash = b.header.previousBlockHash := (newNode_eq hnode).2.1
  refine ⟨htree.path_last hpar, hmem, ?_, ?_, adm.structured, by rw [hprev]; exact adm.header, ?_, adm.encodable, hnode⟩
  · intro e
    have := adm.fresh
    rw [e, htree.root] at this
    cases this
  · rw [← hprev, htree.hash_eq hpar]
  · rw [hprev]
    exact adm.median

/-- Storing an admitted block, whichever of the stored blocks is the tip then. -/
theorem AllReady.insert (h : AllReady H now genesis S st.tree) (htree : TreeInv H genesis st.tree)
    (adm : Admitted H now st b parent pu) (hnode : newNode H parent b = some node) (hmem : b ∈ S) (tip : Hash256) :
    AllReady H now genesis S { st.tree.insertNode node with canonicalTip := tip } := by
  intro k n hk hr
  change (st.tree.insertNode node).getNode k = some n at hk
  show ∃ p, Ready H now genesis S ((st.tree.insertNode node).getPathFromGenesis n.parentHash) p n.block n
  rw [ChainTree.getNode_insertNode] at hk
  split at hk
  · cases hk
    have hready := adm.ready hnode htree hmem
    rw [adm.kept_path hnode htree (adm.isChild hnode).parent_stored, hready.node_eq.2.2]
    exact ⟨parent, hready⟩
  · obtain ⟨p, hready⟩ := h k n hk hr
    obtain ⟨-, q, hc⟩ := htree.child hk hr
    rw [adm.kept_path hnode htree hc.parent_stored]
    exact ⟨p, hready⟩

theorem AllReady.congr {t' : ChainTree} (h : AllReady H now genesis S t) (htree : TreeInv H genesis t)
    (hn : t'.nodes = t.nodes) (ht : t'.canonicalTip = t.canonicalTip) : AllReady H now genesis S t' := by
  have hg : ∀ k, t'.getNode k = t.getNode k := fun k => by rw [ChainTree.getNode, hn, ChainTree.getNode]
  intro k n hk hr
  rw [hg] at hk
  obtain ⟨-, q, hc⟩ := htree.child hk hr
  rw [ChainTree.path_mono htree.rooted (htree.congr hn ht).rooted (fun k n hk => by rw [hg, hk]) hc.parent_stored]
  exact h k n hk hr

/-- The branch of an admitted block, cut anywhere: what stands before a block of it is
    that block's parent's path, and the block was ready there. -/
theorem AllReady.branch (h : AllReady H now genesis S st.tree) (htree : TreeInv H genesis st.tree)
    (adm : Admitted H now st b parent pu) (hnode : newNode H parent b = some node) (hmem : b ∈ S) {ancestor : Hash256}
    (hfound : st.tree.findCommonAncestor st.tree.canonicalTip node.parentHash = .ok ancestor) :
    (∃ na, st.tree.getNode ancestor = some na) ∧ st.tree.getPathFromGenesis ancestor ≠ [] ∧
      (∃ δ, st.tree.getPathFromGenesis st.tree.canonicalTip = st.tree.getPathFromGenesis ancestor ++ δ) ∧
      st.tree.getPathFromGenesis ancestor ++ ((st.tree.walkUpto node.parentHash ancestor).reverse ++ [node]) =
        st.tree.getPathFromGenesis b.header.previousBlockHash ++ [node] ∧
      ∀ β₁ m β₂, (st.tree.walkUpto node.parentHash ancestor).reverse ++ [node] = β₁ ++ m :: β₂ →
        st.tree.getPathFromGenesis m.parentHash = st.tree.getPathFromGenesis ancestor ++ β₁ ∧
          ∃ p b', Ready H now genesis S (st.tree.getPathFromGenesis ancestor ++ β₁) p b' m := by
  obtain ⟨tip, htip⟩ := htree.tip
  have hpar := (adm.isChild hnode).parent_stored
  have hprev : node.parentHash = b.header.previousBlockHash := (newNode_eq hnode).2.1
  obtain ⟨c, hc, hca, hcb, nc, hnc⟩ := ChainTree.findCommonAncestor_spec htree.rooted htip hpar
  rw [hfound] at hc
  cases hc
  have hpath := ChainTree.path_upto htree.rooted hpar hcb
  have hne : st.tree.getPathFromGenesis ancestor ≠ [] := by
    have := (htree.isPath hnc).first
    rintro e
    rw [e] at this
    cases this
  have hsum : st.tree.getPathFromGenesis ancestor ++ ((st.tree.walkUpto node.parentHash ancestor).reverse ++ [node]) =
      st.tree.getPathFromGenesis b.header.previousBlockHash ++ [node] := by
    rw [← hprev, hpath, List.append_assoc]
  refine ⟨⟨nc, hnc⟩, hne, ⟨_, ChainTree.path_upto htree.rooted htip hca⟩, hsum, ?_⟩
  intro β₁ m β₂ hβ
  rcases Ancestry.concat_cut hβ with ⟨rfl, rfl⟩ | ⟨β₃, h1⟩
  · -- the block itself
    rw [← hpath]
    exact ⟨rfl, parent, b, adm.ready hnode htree hmem⟩
  · -- a stored block of the branch
    have hparent : st.tree.getPathFromGenesis node.parentHash =
        (st.tree.getPathFromGenesis ancestor ++ β₁) ++ m :: β₃ := by rw [hpath, h1, List.append_assoc]
    obtain ⟨hm1, hm2, hmr⟩ := htree.path_before hpar hparent (by simp [hne])
    obtain ⟨p, hready⟩ := h m.hash m hm2 hmr
    rw [hm1] at hready
    exact ⟨hm1, p, m.block, hready⟩

end

/-! ## The invariant of a run -/

/-- After the blocks `P` of `S` were processed. -/
structure ConvInv (H : Hasher) (v : Verifier) (now : Option UInt64) (genesis : Block) (S P : List Block)
    (st : ChainState) : Prop where
  state : StateInv H genesis st
  tip_good : Good H v now genesis S (st.tree.getPathFromGenesis st.tree.canonicalTip)
  /-- Every good chain whose last block was processed is stored. -/
  kept : ∀ {π n}, Good H v now genesis S π → π.getLast? = some n → (n.block ∈ P ∨ n = genesisNode H genesis) →
    st.tree.getNode n.hash = some n ∧ st.tree.getPathFromGenesis n.hash = π
  /-- No block of a good chain is marked invalid. -/
  clean : ∀ {π n}, Good H v now genesis S π → π.getLast? = some n → st.tree.isBlockInvalid n.hash = false
  /-- Every stored block was processed, and was ready on its parent's path. -/
  stored : ∀ {k n}, st.tree.getNode k = some n → k ≠ genesis.header.hash H →
    n.block ∈ P ∧ ∃ p, Ready H now genesis S (st.tree.getPathFromGenesis n.parentHash) p n.block n
  /-- While a block with the genesis hash is still to come, nothing has happened. -/
  pending : ∀ c ∈ S, c ∉ P → c.header.hash H = genesis.header.hash H →
    (∀ k, st.tree.isBlockInvalid k = false) ∧ ∀ {k n}, st.tree.getNode k = some n → k = genesis.header.hash H

/-- The next block of an order that puts parents first. -/
structure Next (H : Hasher) (S P : List Block) (b : Block) : Prop where
  distinct : ∀ a ∈ S, ∀ c ∈ S, a.header.hash H = c.header.hash H → a = c
  processed : ∀ c ∈ P, c ∈ S
  mem : b ∈ S
  fresh : b ∉ P
  parents_first : ∀ c ∈ S, c ∉ P → c ≠ b → b.header.previousBlockHash ≠ c.header.hash H

variable {P : List Block} {st : ChainState} {b : Block}

theorem StateInv.parentUtxo_eq {genesis : Block} {st : ChainState} (h : StateInv H genesis st) {k : Hash256} {pu : UtxoSet}
    (hrep : replay H UtxoSet.new (st.tree.getPathFromGenesis k) = .ok pu) : st.tree.parentUtxo H st.utxo k = .ok pu := by
  unfold ChainTree.parentUtxo
  split
  · rename_i e
    rw [e, h.replayed] at hrep
    exact hrep
  · exact hrep

namespace ConvInv

/-- A block that ends a good chain is admitted: its parent's chain is stored and nothing
    on it is marked. -/
theorem admitted (h : ConvInv H v now genesis S P st) (hb : Next H S P b) {π : List BlockNode} {n : BlockNode}
    (hgood : Good H v now genesis S π) (hl : π.getLast? = some n) (hblock : n.block = b)
    (hne : n ≠ genesisNode H genesis) :
    ∃ p pu, Admitted H now st b p pu ∧ newNode H p b = some n ∧
      π = st.tree.getPathFromGenesis b.header.previousBlockHash ++ [n] := by
  rcases hgood.cases_last hl with ⟨-, rfl⟩ | ⟨π₀, p, b', pu, u, rfl, hg₀, ready, hrep, hconn⟩
  · exact absurd rfl hne
  · obtain ⟨hhash, -, hb'⟩ := ready.node_eq
    have hb' : b' = b := by rw [← hb', hblock]
    subst hb'
    -- the parent is the genesis block or was processed before
    have hp : p.block ∈ P ∨ p = genesisNode H genesis := by
      rcases hg₀.cases_last ready.last with ⟨-, hp⟩ | ⟨π₁, q, c, -, -, -, -, hready, -, -⟩
      · exact Or.inr hp
      · obtain ⟨hph, -, hpb⟩ := hready.node_eq
        refine Or.inl ?_
        by_contra hnot
        rw [hpb] at hnot
        by_cases e : c = b'
        · subst e
          have := (checkHeader_ok ready.header).2
          rw [hpb] at this
          exact absurd this (by simp)
        · exact hb.parents_first c hready.mem hnot e (by rw [ready.prev, hph])
    obtain ⟨hstored, hpath⟩ := h.kept hg₀ ready.last hp
    rw [← ready.prev] at hstored hpath
    obtain ⟨fees, hval⟩ := connectNode_authoritative hconn
    obtain ⟨-, -, hheight, -⟩ := newNode_eq ready.node
    have hfresh : st.tree.getNode (b'.header.hash H) = none := by
      cases hg : st.tree.getNode (b'.header.hash H) with
      | none => rfl
      | some m =>
        obtain ⟨hm, -⟩ := h.stored hg ready.not_genesis
        have : m.block = b' := hb.distinct _ (hb.processed _ hm) _ hb.mem (h.state.tree.block_hash hg)
        exact absurd (this ▸ hm) hb.fresh
    refine ⟨p, pu, ⟨⟨?_, ?_, ready.structured, hfresh, hstored, by rw [hpath]; exact ready.header,
      h.state.parentUtxo_eq (by rw [hpath]; exact hrep), by rw [ChainTree.headersTo, hpath]; exact ready.median⟩,
      ready.encodable, fees, ?_⟩, ready.node, by rw [hpath]⟩
    · rw [← hhash]
      exact h.clean hgood hl
    · rw [ready.prev]
      exact h.clean hg₀ ready.last
    · rw [ChainTree.headersTo, hpath, ← hheight]
      rw [hblock] at hval
      exact hval

/-- Storing an admitted block, every good chain that ends in it or in an earlier one is
    stored. -/
theorem kept_insert (h : ConvInv H v now genesis S P st) (hb : Next H S P b) {parent node : BlockNode} {pu : UtxoSet}
    (adm : Admitted H now st b parent pu) (hnode : newNode H parent b = some node) {π : List BlockNode} {n : BlockNode}
    (hgood : Good H v now genesis S π) (hl : π.getLast? = some n)
    (hn : n.block ∈ b :: P ∨ n = genesisNode H genesis) :
    (st.tree.insertNode node).getNode n.hash = some n ∧ (st.tree.insertNode node).getPathFromGenesis n.hash = π := by
  have hself := ChainTree.getNode_insertNode_self st.tree node
  by_cases hold : n.block ∈ P ∨ n = genesisNode H genesis
  · obtain ⟨h1, h2⟩ := h.kept hgood hl hold
    exact ⟨adm.grows hnode _ _ h1, by rw [adm.kept_path hnode h.state.tree h1, h2]⟩
  · -- the new block itself
    have hnb : n.block = b := by
      rcases hn with hn | hn
      · rcases List.mem_cons.mp hn with hn | hn
        · exact hn
        · exact absurd (Or.inl hn) hold
      · exact absurd (Or.inr hn) hold
    obtain ⟨p, pu', adm', hnode', hπ⟩ := h.admitted hb hgood hl hnb fun e => hold (Or.inr e)
    have hp : p = parent := by
      have := adm'.parent_stored
      rw [adm.parent_stored] at this
      exact (Option.some.inj this).symm
    subst hp
    rw [hnode] at hnode'
    cases hnode'
    exact ⟨hself, by rw [adm.stored_path hnode h.state.tree, hπ]⟩

/-- The stored blocks were ready. -/
theorem allReady (h : ConvInv H v now genesis S P st) : AllReady H now genesis S st.tree :=
  fun _ _ hk hr => (h.stored hk hr).2

/-- A block that ends a good chain is stored or refused for its depth. -/
theorem not_refused (h : ConvInv H v now genesis S P st) (hb : Next H S P b) {π : List BlockNode} {n : BlockNode}
    (hgood : Good H v now genesis S π) (hl : π.getLast? = some n) (hblock : n.block = b)
    (hne : n ≠ genesisNode H genesis) {e : ChainError} (he : e.isDepth = false) :
    (processBlockWithVerifier H v now st b).2 ≠ .error e := by
  obtain ⟨p, pu, adm, hnode, hπ⟩ := h.admitted hb hgood hl hblock hne
  rw [process_admitted adm hnode]
  have htree := h.state.tree
  obtain ⟨tip, htip⟩ := htree.tip
  obtain ⟨c, hc, -⟩ := ChainTree.findCommonAncestor_spec htree.rooted htip (adm.isChild hnode).parent_stored
  obtain ⟨-, hcne, ⟨δ, hδ⟩, hsum, hcut⟩ := h.allReady.branch h.state.tree adm hnode hb.mem hc
  -- the ancestor's path replays, as the beginning of the tip's, and the branch connects on it
  have hreplayed := h.state.replayed
  rw [hδ] at hreplayed
  obtain ⟨staged, hstaged, -⟩ := replay_split hreplayed
  rw [hπ, ← hsum] at hgood
  obtain ⟨u, hu⟩ := connectNodes_good hgood hcne (fun β₁ m β₂ hβ => (hcut β₁ m β₂ hβ).1) hstaged
  unfold forkChoice
  rw [htip]
  simp only
  split
  · simp
  · rw [hc]
    simp only
    split
    · rintro heq
      cases heq
      cases he
    · rw [h.state.parentUtxo_eq hstaged]
      simp only [hu]
      simp

/-- A call that stores nothing, on a block that ends no good chain. -/
theorem same_nodes (h : ConvInv H v now genesis S P st)
    (hnot : ∀ {π n}, Good H v now genesis S π → π.getLast? = some n → n.block = b → n = genesisNode H genesis)
    {t' : ChainTree} (hn : t'.nodes = st.tree.nodes) (ht : t'.canonicalTip = st.tree.canonicalTip)
    (hclean : ∀ {π n}, Good H v now genesis S π → π.getLast? = some n → t'.isBlockInvalid n.hash = false)
    (hpend : ∀ c ∈ S, c ∉ b :: P → c.header.hash H = genesis.header.hash H →
      (∀ k, t'.isBlockInvalid k = false) ∧ ∀ {k n}, t'.getNode k = some n → k = genesis.header.hash H) :
    ConvInv H v now genesis S (b :: P) ⟨t', st.utxo⟩ := by
  have hg : ∀ k, t'.getNode k = st.tree.getNode k := fun k => by rw [ChainTree.getNode, hn, ChainTree.getNode]
  have hpath : ∀ {k n}, st.tree.getNode k = some n → t'.getPathFromGenesis k = st.tree.getPathFromGenesis k := fun hk =>
    ChainTree.path_mono h.state.tree.rooted (h.state.tree.congr hn ht).rooted (fun k n hk => by rw [hg, hk]) hk
  refine ⟨h.state.congr hn ht, ?_, ?_, hclean, ?_, hpend⟩
  · obtain ⟨tip, htip⟩ := h.state.tree.tip
    show Good H v now genesis S (t'.getPathFromGenesis t'.canonicalTip)
    rw [ht, hpath htip]
    exact h.tip_good
  · intro π n hgood hl hmem
    have hmem' : n.block ∈ P ∨ n = genesisNode H genesis := by
      rcases hmem with hmem | hmem
      · rcases List.mem_cons.mp hmem with e | hmem
        · exact Or.inr (hnot hgood hl e)
        · exact Or.inl hmem
      · exact Or.inr hmem
    obtain ⟨h1, h2⟩ := h.kept hgood hl hmem'
    exact ⟨by show t'.getNode n.hash = some n; rw [hg, h1], by show t'.getPathFromGenesis n.hash = π; rw [hpath h1, h2]⟩
  · intro k n hk hr
    change t'.getNode k = some n at hk
    rw [hg] at hk
    exact ⟨List.mem_cons_of_mem _ (h.stored hk hr).1, h.allReady.congr h.state.tree hn ht k n (by rw [hg]; exact hk) hr⟩

/-- A call that stores the block, whichever of the stored blocks is the tip then. -/
theorem insert_node (h : ConvInv H v now genesis S P st) (hb : Next H S P b) {parent node : BlockNode} {pu : UtxoSet}
    (adm : Admitted H now st b parent pu) (hnode : newNode H parent b = some node) (tip : Hash256) {utxo : UtxoSet}
    (hstate : StateInv H genesis ⟨{ st.tree.insertNode node with canonicalTip := tip }, utxo⟩)
    (htip : Good H v now genesis S ((st.tree.insertNode node).getPathFromGenesis tip)) :
    ConvInv H v now genesis S (b :: P) ⟨{ st.tree.insertNode node with canonicalTip := tip }, utxo⟩ := by
  refine ⟨hstate, htip, h.kept_insert hb adm hnode, fun hgood hl => h.clean hgood hl, ?_, ?_⟩
  · intro k n hk hr
    refine ⟨?_, h.allReady.insert h.state.tree adm hnode hb.mem tip k n hk hr⟩
    change (st.tree.insertNode node).getNode k = some n at hk
    rw [ChainTree.getNode_insertNode] at hk
    split at hk
    · cases hk
      rw [(newNode_eq hnode).2.2.2.1]
      exact List.mem_cons_self
    · exact List.mem_cons_of_mem _ (h.stored hk hr).1
  · -- a stored block has a stored parent, which is not still to come
    intro c hcS hcP hch
    have hcP' : c ∉ P := fun hm => hcP (List.mem_cons_of_mem _ hm)
    have hroot := (h.pending c hcS hcP' hch).2 adm.parent_stored
    exact absurd (by rw [hroot, hch]) (hb.parents_first c hcS hcP' fun e => hcP (e ▸ List.mem_cons_self))

/-- A block that fails to connect on the chain it is on is the last of no good chain. -/
theorem bad_clean (h : ConvInv H v now genesis S P st) (hb : Next H S P b) {parent node m p : BlockNode} {pu : UtxoSet}
    {b' : Block} (adm : Admitted H now st b parent pu) (hnode : newNode H parent b = some node) {α β₂ : List BlockNode}
    (hne : α ≠ []) (hsum : st.tree.getPathFromGenesis b.header.previousBlockHash ++ [node] = α ++ m :: β₂)
    (ready : Ready H now genesis S α p b' m) (hbad : ¬Good H v now genesis S (α ++ [m])) {π : List BlockNode}
    {n : BlockNode} (hgood : Good H v now genesis S π) (hl : π.getLast? = some n) : n.hash ≠ m.hash := by
  intro e
  -- in the tree with the block stored, `m` is on the block's path
  have hplus := adm.stored_path hnode h.state.tree
  rw [hsum] at hplus
  have htree := adm.treeInv hnode h.state.tree node.hash ⟨node, ChainTree.getNode_insertNode_self _ _⟩
  obtain ⟨hm1, hm2, hmr⟩ := htree.path_before (ChainTree.getNode_insertNode_self _ _) hplus hne
  have hmpath := ChainTree.path_child (t := st.tree.insertNode node) htree.rooted hm2 hmr
  change (st.tree.insertNode node).getNode m.hash = some m at hm2
  have hmP : m.block ∈ b :: P := by
    rw [ChainTree.getNode_insertNode] at hm2
    split at hm2
    · cases hm2
      rw [(newNode_eq hnode).2.2.2.1]
      exact List.mem_cons_self
    · exact List.mem_cons_of_mem _ (h.stored hm2 hmr).1
  -- a good chain that ends in `m`'s hash ends in `m`, on `m`'s own path
  obtain ⟨hmh, -, hmb⟩ := ready.node_eq
  rcases hgood.cases_last hl with ⟨-, rfl⟩ | ⟨π₀, q, b'', -, -, -, -, ready', -, -⟩
  · exact ready.not_genesis (by rw [← hmh, ← e]; rfl)
  · obtain ⟨hnh, -, hnb⟩ := ready'.node_eq
    have hbb : b'' = b' := hb.distinct _ ready'.mem _ ready.mem (by rw [← hnh, ← hmh, e])
    have hnP : n.block ∈ b :: P := by rw [hnb, hbb, ← hmb]; exact hmP
    obtain ⟨h1, h2⟩ := h.kept_insert hb adm hnode hgood hl (Or.inl hnP)
    rw [e, hm2] at h1
    obtain rfl : m = n := Option.some.inj h1
    refine hbad ?_
    change (st.tree.insertNode node).getPathFromGenesis m.parentHash = _ at hm1
    rw [← hm1, ← hmpath, h2]
    exact hgood

/-- What a call marks is on no good chain. -/
theorem marks_clean (h : ConvInv H v now genesis S P st) (hb : Next H S P b) {hs : List Hash256}
    (why : Marks H v now st b hs)
    (hnot : ∀ {π n}, Good H v now genesis S π → π.getLast? = some n → n.block = b → n = genesisNode H genesis)
    {π : List BlockNode} {n : BlockNode} (hgood : Good H v now genesis S π) (hl : π.getLast? = some n) : n.hash ∉ hs := by
  -- the block itself ends no good chain, and it is marked only if its hash is not the genesis hash
  have hself : b.header.hash H ≠ genesis.header.hash H → n.hash ≠ b.header.hash H := by
    intro hne e
    rcases hgood.cases_last hl with ⟨-, rfl⟩ | ⟨π₀, p, b', pu, u, -, -, ready, -, -⟩
    · exact hne e.symm
    · obtain ⟨hhash, -, hblock⟩ := ready.node_eq
      have hb' : b' = b := hb.distinct _ ready.mem _ hb.mem (by rw [← hhash, e])
      have := hnot hgood hl (by rw [hblock, hb'])
      rw [this] at hhash
      exact ready.not_genesis hhash.symm
  have hexam : ∀ {parent pu}, Examined H now st b parent pu → b.header.hash H ≠ genesis.header.hash H := by
    intro parent pu ex e
    have := ex.fresh
    rw [e, h.state.tree.root] at this
    cases this
  cases why with
  | parent hun hinv =>
    have hne : b.header.hash H ≠ genesis.header.hash H := by
      intro e
      have := (h.pending b hb.mem hb.fresh e).1 b.header.previousBlockHash
      rw [hinv] at this
      cases this
    simpa using hself hne
  | block parent pu ex e he => simpa using hself (hexam ex)
  | branch parent node pu adm hnode ancestor staged found base bad e herr =>
    obtain ⟨-, hcne, -, hsum, hcut⟩ := h.allReady.branch h.state.tree adm hnode hb.mem found
    obtain ⟨β₁, m, β₂, hβ, rfl, hbad⟩ := bad_of_connectNodes now genesis S hcne
      (fun β₁ m β₂ hβ => (hcut β₁ m β₂ hβ).1) (h.state.parentUtxo base) herr
    have hnode' : n.hash ≠ node.hash := by
      rw [(newNode_eq hnode).1]
      exact hself (hexam adm.toExamined)
    obtain ⟨-, p, b', ready⟩ := hcut β₁ m β₂ hβ
    have hplace : st.tree.getPathFromGenesis b.header.previousBlockHash ++ [node] =
        (st.tree.getPathFromGenesis ancestor ++ β₁) ++ m :: β₂ := by rw [← hsum, hβ, List.append_assoc]
    have hm : n.hash ≠ m.hash := h.bad_clean hb adm hnode (by simp [hcne]) hplace ready hbad hgood hl
    simp [hm, hnode']

/-- One call keeps the invariant. -/
theorem step (h : ConvInv H v now genesis S P st) (hb : Next H S P b)
    (hdeep : notTooDeep (processBlockWithVerifier H v now st b).2) :
    ConvInv H v now genesis S (b :: P) (processBlockWithVerifier H v now st b).1 := by
  have hrefused : ∀ {e}, (processBlockWithVerifier H v now st b).2 = .error e → e.isDepth = false →
      ∀ {π n}, Good H v now genesis S π → π.getLast? = some n → n.block = b → n = genesisNode H genesis := by
    intro e he hd π n hgood hl hblock
    by_contra hne
    exact h.not_refused hb hgood hl hblock hne hd he
  have o := process_outcome H v now st b
  have hstate := o.stateInv h.state
  have hpend : ∀ c ∈ S, c ∉ b :: P → c.header.hash H = genesis.header.hash H →
      (∀ k, st.tree.isBlockInvalid k = false) ∧ ∀ {k n}, st.tree.getNode k = some n → k = genesis.header.hash H :=
    fun c hc hcP hch => h.pending c hc (fun hm => hcP (List.mem_cons_of_mem _ hm)) hch
  generalize processBlockWithVerifier H v now st b = r at *
  cases o with
  | refused e he => exact h.same_nodes (hrefused rfl he) rfl rfl h.clean hpend
  | known m hm =>
    refine h.same_nodes ?_ rfl rfl h.clean hpend
    intro π n hgood hl hblock
    by_contra hne
    obtain ⟨p, pu, adm, -, -⟩ := h.admitted hb hgood hl hblock hne
    rw [adm.fresh] at hm
    cases hm
  | marked hs e he why =>
    have hnot := fun {π n} => hrefused rfl he (π := π) (n := n)
    refine h.same_nodes hnot (ChainTree.markAll_nodes hs _) (ChainTree.markAll_tip hs _) ?_ ?_
    · intro π n hgood hl
      rw [ChainTree.isBlockInvalid_markAll, h.clean hgood hl]
      simpa using h.marks_clean hb why hnot hgood hl
    · -- a call that marks has an invalid or a stored parent
      intro c hc hcP hch
      obtain ⟨hinv, hstored⟩ := hpend c hc hcP hch
      have hparent : ∀ {parent pu}, Examined H now st b parent pu → False := fun ex =>
        hb.parents_first c hc (fun hm => hcP (List.mem_cons_of_mem _ hm)) (fun e => hcP (e ▸ List.mem_cons_self))
          (by rw [hstored ex.parent_stored, hch])
      cases why with
      | parent hun hp =>
        rw [hinv] at hp
        cases hp
      | block parent pu ex => exact (hparent ex).elim
      | branch parent node pu adm => exact (hparent adm.toExamined).elim
  | side parent node tip pu adm hnode =>
    refine h.insert_node hb adm hnode st.tree.canonicalTip hstate ?_
    obtain ⟨tipn, htipn⟩ := h.state.tree.tip
    rw [adm.kept_path hnode h.state.tree htipn]
    exact h.tip_good
  | deep parent node tip pu adm depth => cases hdeep
  | switched parent node tip pu adm ancestor staged utxo res hnode htip hlt conn =>
    refine h.insert_node hb adm hnode _ hstate ?_
    obtain ⟨-, hcne, ⟨δ, hδ⟩, -, hcut⟩ := h.allReady.branch h.state.tree adm hnode hb.mem conn.found
    have hgood := h.tip_good
    rw [hδ] at hgood
    rw [conn.path adm hnode h.state.tree]
    exact good_of_connectNodes (hgood.take hcne) hcut (h.state.parentUtxo conn.base) conn.connected

end ConvInv

/-! ## Runs -/

/-- Processing a list of blocks at one clock with one verifier. -/
def processAll (H : Hasher) (v : Verifier) (now : Option UInt64) : ChainState → List Block → ChainState
  | st, [] => st
  | st, b :: bs => processAll H v now (processBlockWithVerifier H v now st b).1 bs

/-- No call of the run is refused for its depth. -/
def NoDepthRefusal (H : Hasher) (v : Verifier) (now : Option UInt64) : ChainState → List Block → Prop
  | _, [] => True
  | st, b :: bs => notTooDeep (processBlockWithVerifier H v now st b).2 ∧
      NoDepthRefusal H v now (processBlockWithVerifier H v now st b).1 bs

instance (H : Hasher) (v : Verifier) (now : Option UInt64) : ∀ (st : ChainState) (l : List Block),
    Decidable (NoDepthRefusal H v now st l)
  | _, [] => inferInstanceAs (Decidable True)
  | st, b :: bs =>
    have := instDecidableNoDepthRefusal H v now (processBlockWithVerifier H v now st b).1 bs
    inferInstanceAs (Decidable (notTooDeep (processBlockWithVerifier H v now st b).2 ∧
      NoDepthRefusal H v now (processBlockWithVerifier H v now st b).1 bs))

/-- No block comes before its parent. -/
def ParentsFirst (H : Hasher) (l : List Block) : Prop :=
  l.Pairwise fun a b => a.header.previousBlockHash ≠ b.header.hash H

instance (H : Hasher) (l : List Block) : Decidable (ParentsFirst H l) :=
  inferInstanceAs (Decidable (l.Pairwise fun a b => a.header.previousBlockHash ≠ b.header.hash H))

theorem run_heaviest {l : List Block} : ∀ {st : ChainState}, Heaviest st.tree → NoDepthRefusal H v now st l →
    Heaviest (processAll H v now st l).tree := by
  induction l with
  | nil => intro st h _; exact h
  | cons b l ih =>
    intro st h hd
    exact ih ((process_outcome H v now st b).heaviest hd.1 h) hd.2

theorem run_convInv {l : List Block} : ∀ {P : List Block} {st : ChainState}, ConvInv H v now genesis S P st →
    (∀ c, c ∈ S ↔ c ∈ P ∨ c ∈ l) → (∀ a ∈ S, ∀ c ∈ S, a.header.hash H = c.header.hash H → a = c) → l.Nodup →
    (∀ b ∈ l, b ∉ P) → ParentsFirst H l → NoDepthRefusal H v now st l →
    ∃ P', ConvInv H v now genesis S P' (processAll H v now st l) ∧ ∀ c ∈ S, c ∈ P' := by
  induction l with
  | nil =>
    intro P st h hS _ _ _ _ _
    refine ⟨P, h, fun c hc => ?_⟩
    simpa using (hS c).mp hc
  | cons b l ih =>
    intro P st h hS hdist hnd hfresh hpf hd
    obtain ⟨hbl, hnd⟩ := List.nodup_cons.mp hnd
    obtain ⟨hb, hpf⟩ := List.pairwise_cons.mp hpf
    have hnext : Next H S P b := by
      refine ⟨hdist, fun c hc => (hS c).mpr (Or.inl hc), (hS b).mpr (Or.inr List.mem_cons_self),
        hfresh b List.mem_cons_self, ?_⟩
      intro c hc hcP hcb
      rcases (hS c).mp hc with hc | hc
      · exact absurd hc hcP
      · rcases List.mem_cons.mp hc with hc | hc
        · exact absurd hc hcb
        · exact hb c hc
    refine ih (h.step hnext hd.1) ?_ hdist hnd ?_ hpf hd.2
    · intro c
      rw [hS c, List.mem_cons, List.mem_cons]
      tauto
    · intro c hc hm
      rcases List.mem_cons.mp hm with rfl | hm
      · exact hbl hc
      · exact hfresh c (List.mem_cons_of_mem _ hc) hm

/-- The start of a run: the tree of the genesis block and the set it leaves. -/
theorem convInv_start (v : Verifier) (now : Option UInt64) (S : List Block) (d : UInt64) {utxo : UtxoSet} {fees : UInt64}
    (hg : UtxoSet.applyBlock H UtxoSet.new genesis.transactions 0 = .ok (utxo, fees)) :
    ConvInv H v now genesis S [] ⟨(ChainTree.new H genesis).withMaxReorgDepth d, utxo⟩ := by
  have hstate : StateInv H genesis ⟨(ChainTree.new H genesis).withMaxReorgDepth d, utxo⟩ :=
    (stateInv_new hg).congr rfl rfl
  have hroot : ∀ {k n}, ((ChainTree.new H genesis).withMaxReorgDepth d).getNode k = some n →
      k = genesis.header.hash H := fun hk => ChainTree.eq_genesis_of_new hk
  have hclean : ∀ k, ((ChainTree.new H genesis).withMaxReorgDepth d).isBlockInvalid k = false := fun k =>
    (Table.not_contains_iff _ _).mpr (Table.get_empty k)
  have hpath := ChainTree.path_root hstate.tree.rooted hstate.tree.root
  refine ⟨hstate, ?_, ?_, fun _ _ => hclean _, fun hk hr => absurd (hroot hk) hr, fun _ _ _ _ => ⟨hclean, hroot⟩⟩
  · show Good H v now genesis S (ChainTree.getPathFromGenesis _ (genesis.header.hash H))
    rw [hpath]
    exact Good.root
  · intro π n hgood hl hn
    rcases hn with hn | rfl
    · cases hn
    · refine ⟨hstate.tree.root, ?_⟩
      show ChainTree.getPathFromGenesis _ (genesis.header.hash H) = π
      rw [hpath]
      -- a good chain that ends in the genesis block is the genesis block
      rcases hgood.cases_last hl with ⟨hπ, -⟩ | ⟨π₀, p, b, pu, u, -, -, ready, -, -⟩
      · exact hπ.symm
      · exact absurd ready.node_eq.1.symm ready.not_genesis

/-- The tip of one run is stored in the other, so it has no more work than the other's. -/
theorem ConvInv.work_le {P₁ P₂ : List Block} {st₁ st₂ : ChainState} (h₁ : ConvInv H v now genesis S P₁ st₁)
    (h₂ : ConvInv H v now genesis S P₂ st₂) (hall : ∀ c ∈ S, c ∈ P₂) (hmax : Heaviest st₂.tree) :
    st₁.tree.canonicalWork.val ≤ st₂.tree.canonicalWork.val := by
  obtain ⟨tip₁, htip₁⟩ := h₁.state.tree.tip
  obtain ⟨tip₂, htip₂, hle⟩ := hmax
  have hlast := h₁.state.tree.path_last htip₁
  have hmem : tip₁.block ∈ P₂ ∨ tip₁ = genesisNode H genesis := by
    rcases h₁.tip_good.cases_last hlast with ⟨-, h⟩ | ⟨π₀, p, b, pu, u, -, -, ready, -, -⟩
    · exact Or.inr h
    · rw [ready.node_eq.2.2]
      exact Or.inl (hall b ready.mem)
  have hstored := (h₂.kept h₁.tip_good hlast hmem).1
  have h1 : st₁.tree.canonicalWork = tip₁.cumulativeWork := by simp [ChainTree.canonicalWork, htip₁]
  have h2 : st₂.tree.canonicalWork = tip₂.cumulativeWork := by simp [ChainTree.canonicalWork, htip₂]
  rw [h1, h2]
  exact hle hstored

/-- Two orders of the same blocks, parents first, at one clock with one verifier, and with
    no call refused for its depth, end in chains of equal work. -/
theorem convergence {utxo : UtxoSet} {fees d : UInt64} {l₁ l₂ : List Block}
    (hg : UtxoSet.applyBlock H UtxoSet.new genesis.transactions 0 = .ok (utxo, fees)) (hperm : l₁.Perm l₂)
    (hdist : (l₁.map fun b => b.header.hash H).Nodup) (ho₁ : ParentsFirst H l₁) (ho₂ : ParentsFirst H l₂)
    (hd₁ : NoDepthRefusal H v now ⟨(ChainTree.new H genesis).withMaxReorgDepth d, utxo⟩ l₁)
    (hd₂ : NoDepthRefusal H v now ⟨(ChainTree.new H genesis).withMaxReorgDepth d, utxo⟩ l₂) :
    (processAll H v now ⟨(ChainTree.new H genesis).withMaxReorgDepth d, utxo⟩ l₁).tree.canonicalWork =
      (processAll H v now ⟨(ChainTree.new H genesis).withMaxReorgDepth d, utxo⟩ l₂).tree.canonicalWork := by
  have hinj : ∀ a ∈ l₁, ∀ c ∈ l₁, a.header.hash H = c.header.hash H → a = c :=
    fun a ha c hc e => List.inj_on_of_nodup_map hdist ha hc e
  have hnd : l₁.Nodup := List.Nodup.of_map _ hdist
  obtain ⟨P₁, h₁, hall₁⟩ := run_convInv (l := l₁) (convInv_start v now l₁ d hg)
    (by simp) hinj hnd (by simp) ho₁ hd₁
  obtain ⟨P₂, h₂, hall₂⟩ := run_convInv (l := l₂) (convInv_start v now l₁ d hg)
    (by simp [hperm.mem_iff]) hinj (hperm.nodup_iff.mp hnd) (by simp) ho₂ hd₂
  have hm₁ := run_heaviest (Heaviest.congr (heaviest_new H genesis) rfl rfl) hd₁
  have hm₂ := run_heaviest (Heaviest.congr (heaviest_new H genesis) rfl rfl) hd₂
  exact CumulativeWork.val_inj (Nat.le_antisymm (h₁.work_le h₂ hall₂ hm₂) (h₂.work_le h₁ hall₁ hm₁))

set_option maxRecDepth 10000 in
theorem convergence_of_two :
    let H := Blake3.digest
    let v := authoritativeTransactionVerifier H
    let start : ChainState := ⟨(ChainTree.new H sampleGenesis).withMaxReorgDepth defaultMaxReorgDepth, UtxoSet.new⟩
    (processAll H v (some 1000) start [sampleBlock H, spendingBlock H]).tree.canonicalWork =
      (processAll H v (some 1000) start [spendingBlock H, sampleBlock H]).tree.canonicalWork :=
  convergence (sampleGenesis_applies _) (List.Perm.swap _ _ _) (by decide +kernel) (by decide +kernel)
    (by decide +kernel) (by decide +kernel) (by decide +kernel)

end

end Scytale
