/-
  Scytale.Consensus.Naming — outpoints and the outputs they name.

  A naming assigns outputs to outpoints. Transactions that are all `Named` by one share no
  identifier unless they have the same outputs, which is what a digest without collisions
  gives. Sets built from such transactions hold what the naming says (`Sourced`), so the
  value of an input is the same wherever it is looked up.
  - `Sourced.replayed`: along every path.
  - `Outcome.sourced`: and in the set of every call on the tree.
-/
import Scytale.Consensus.NoReplay
import Scytale.Core.Applies

namespace Scytale

open Lib

/-- An output for each outpoint that has one. -/
abbrev Naming := OutPoint → Option TxOut

/-- The transaction's outputs are those named under its identifier. -/
structure Named (H : Hasher) (naming : Naming) (t : Transaction) : Prop where
  outputs : ∀ o out, o.txid = t.txid H → t.outputs[o.index.toNat]? = some out → naming o = some out
  short : t.outputs.length < 2 ^ 32

/-- Every entry has the output its outpoint names. -/
def Sourced (naming : Naming) (s : UtxoSet) : Prop :=
  ∀ (o : OutPoint) (e : UtxoEntry), s.entries[o]? = some e → naming o = some e.output

variable {H : Hasher} {genesis : Block} {naming : Naming}

theorem Named.created {t : Transaction} (h : Named H naming t) {height : UInt64} {cb : Bool} {p : OutPoint × UtxoEntry}
    (hp : p ∈ UtxoSet.created H height cb t) : naming p.1 = some p.2.output := by
  obtain ⟨j, hj, hout, hkey⟩ := createdFrom_output p hp
  have hidx : (UInt32.ofNat (0 + j)).toNat = j := by
    have := h.short
    rw [UInt32.toNat_ofNat', Nat.zero_add, Nat.mod_eq_of_lt (by omega)]
  refine h.outputs p.1 _ (by rw [hkey]) ?_
  rw [hkey, hidx]
  exact hout

/-! ## Sets -/

section
variable {s s' : UtxoSet} {height : UInt64}

theorem sourced_new : Sourced naming UtxoSet.new := by
  intro o e h
  have hnone : (UtxoSet.new.entries)[o]? = none := Table.get_empty o
  rw [hnone] at h
  cases h

/-- Entries that are named go in. -/
theorem Sourced.insertEntries {l : List (OutPoint × UtxoEntry)} : ∀ {s : UtxoSet}, Sourced naming s →
    (∀ p ∈ l, naming p.1 = some p.2.output) → Sourced naming (UtxoSet.insertAll s l).1 := by
  induction l with
  | nil => intro s h _; exact h
  | cons p l ih =>
    obtain ⟨o, e⟩ := p
    intro s h hl
    unfold UtxoSet.insertAll
    split
    · exact h
    · rename_i s₁ h₁
      obtain ⟨-, hent⟩ := UtxoSet.insert_ok h₁
      refine ih (fun a x hx => ?_) fun p hp => hl p (List.mem_cons_of_mem _ hp)
      rw [hent, Table.get_insert] at hx
      split at hx
      · rename_i heq
        cases hx
        rw [← heq]
        exact hl _ List.mem_cons_self
      · exact h a x hx

theorem Sourced.insertAll (h : Sourced naming s) {t : Transaction} (ht : Named H naming t) {cb : Bool}
    (hins : UtxoSet.insertAll s (UtxoSet.created H height cb t) = (s', .ok ())) : Sourced naming s' := by
  have := h.insertEntries (l := UtxoSet.created H height cb t) fun p hp => ht.created hp
  rw [hins] at this
  exact this

theorem Sourced.removeInputs (h : Sourced naming s) (is : List TxIn) : Sourced naming (s.removeInputs is) := by
  intro o e he
  rw [UtxoSet.get_removeInputs] at he
  split at he
  · cases he
  · exact h o e he

theorem Sourced.transaction (h : Sourced naming s) {t : Transaction} (ht : Named H naming t) {fee : UInt64}
    (hap : UtxoSet.applyTransaction H s t height = (s', .ok fee)) : Sourced naming s' :=
  (h.removeInputs t.inputs).insertAll ht (UtxoSet.applyTransaction_ok hap).2.1

theorem Sourced.rest {rest : List Transaction} : ∀ {s s' : UtxoSet} {fees fees' : UInt64}, Sourced naming s →
    (∀ t ∈ rest, Named H naming t) → UtxoSet.applyRest H height s fees rest = .ok (s', fees') → Sourced naming s' := by
  induction rest with
  | nil => intro s s' fees fees' h _ hap; cases hap; exact h
  | cons t rest ih =>
    intro s s' fees fees' h hnamed hap
    obtain ⟨-, s₁, fee, fees₁, hap₁, -, hrest⟩ := UtxoSet.applyRest_cons hap
    exact ih (h.transaction (hnamed t List.mem_cons_self) hap₁) (fun a ha => hnamed a (List.mem_cons_of_mem _ ha)) hrest

theorem Sourced.block (h : Sourced naming s) {txs : List Transaction} {fees : UInt64}
    (hnamed : ∀ t ∈ txs, Named H naming t) (hap : UtxoSet.applyBlock H s txs height = .ok (s', fees)) :
    Sourced naming s' := by
  obtain ⟨cb, rest, s₁, rfl, -, hapcb, hrest⟩ := UtxoSet.applyBlock_ok hap
  obtain ⟨-, hins⟩ := UtxoSet.applyCoinbase_ok hapcb
  exact (h.insertAll (hnamed cb List.mem_cons_self) hins).rest (fun t ht => hnamed t (List.mem_cons_of_mem _ ht)) hrest

/-- Along a path. -/
theorem Sourced.replayed {ns : List BlockNode} : ∀ {s s' : UtxoSet}, Sourced naming s →
    (∀ t ∈ chainTxs ns, Named H naming t) → replay H s ns = .ok s' → Sourced naming s' := by
  induction ns with
  | nil => intro s s' h _ hr; cases hr; exact h
  | cons n ns ih =>
    intro s s' h hnamed hr
    obtain ⟨s₁, fees, hap, hrest⟩ := replay_cons hr
    have hall : ∀ t ∈ n.block.transactions ++ chainTxs ns, Named H naming t := hnamed
    exact ih (h.block (fun t ht => hall t (List.mem_append_left _ ht)) hap)
      (fun t ht => hall t (List.mem_append_right _ ht)) hrest

end

/-! ## The tree -/

/-- All transactions of all stored blocks are named. -/
def TreeNamed (H : Hasher) (naming : Naming) (t : ChainTree) : Prop :=
  ∀ (k : Hash256) (n : BlockNode), t.getNode k = some n → ∀ tx ∈ n.block.transactions, Named H naming tx

theorem TreeNamed.path {t : ChainTree} (hn : TreeNamed H naming t) (h : TreeInv H genesis t) {k : Hash256} {n : BlockNode}
    (hk : t.getNode k = some n) : ∀ tx ∈ chainTxs (t.getPathFromGenesis k), Named H naming tx := by
  intro tx htx
  obtain ⟨m, hm, htm⟩ := List.mem_flatMap.mp htx
  obtain ⟨k', hk'⟩ := h.mem_path hk hm
  exact hn k' m hk' tx htm

theorem TreeNamed.insert {t : ChainTree} (h : TreeNamed H naming t) {node : BlockNode}
    (hnode : ∀ tx ∈ node.block.transactions, Named H naming tx) : TreeNamed H naming (t.insertNode node) := by
  intro k n hk
  rw [ChainTree.getNode_insertNode] at hk
  split at hk
  · cases hk
    exact hnode
  · exact h k n hk

section
variable {v : Verifier} {now : Option UInt64} {st : ChainState} {b : Block}
  {r : ChainState × Except ChainError (Option ReorgResult)}

theorem Outcome.treeNamed (o : Outcome H v now st b r) (h : TreeNamed H naming st.tree)
    (hb : ∀ tx ∈ b.transactions, Named H naming tx) : TreeNamed H naming r.1.tree := by
  have hinsert : ∀ {parent node}, newNode H parent b = some node → TreeNamed H naming (st.tree.insertNode node) := by
    intro parent node hnode
    refine h.insert ?_
    rw [(newNode_eq hnode).2.2.2.1]
    exact hb
  cases o with
  | refused e he => exact h
  | known m hm => exact h
  | marked hs e he why =>
    intro k n hk
    refine h k n ?_
    rw [ChainTree.getNode] at hk ⊢
    rw [← ChainTree.markAll_nodes hs]
    exact hk
  | side parent node tip pu adm hnode => exact hinsert hnode
  | deep parent node tip pu adm depth hnode => exact hinsert hnode
  | switched parent node tip pu adm ancestor staged utxo r hnode => exact hinsert hnode

/-- The set at a stored block. -/
theorem Sourced.parentUtxo {t : ChainTree} {utxo pu : UtxoSet} (h : Sourced naming utxo) (hn : TreeNamed H naming t)
    (ht : TreeInv H genesis t) {k : Hash256} {n : BlockNode} (hk : t.getNode k = some n)
    (hp : t.parentUtxo H utxo k = .ok pu) : Sourced naming pu := by
  unfold ChainTree.parentUtxo at hp
  split at hp
  · cases hp
    exact h
  · exact sourced_new.replayed (hn.path ht hk) hp

theorem Outcome.sourced (o : Outcome H v now st b r) (htree : TreeInv H genesis st.tree) (hn : TreeNamed H naming st.tree)
    (h : Sourced naming st.utxo) (hb : ∀ tx ∈ b.transactions, Named H naming tx) : Sourced naming r.1.utxo := by
  cases o with
  | refused e he => exact h
  | known m hm => exact h
  | marked hs e he why => exact h
  | side parent node tip pu adm hnode => exact h
  | deep parent node tip pu adm depth hnode => exact h
  | switched parent node tip pu adm ancestor staged utxo r hnode htip hlt conn =>
    have hpar := (adm.isChild hnode).parent_stored
    obtain ⟨c, hfound, -, hcb, nc, hnc⟩ := ChainTree.findCommonAncestor_spec htree.rooted htip hpar
    rw [conn.found] at hfound
    cases hfound
    refine (h.parentUtxo hn htree hnc conn.base).replayed (fun tx htx => ?_) (connectNodes_replay conn.connected)
    -- the connected blocks are on the parent's path, or the block itself
    obtain ⟨m, hm, htm⟩ := List.mem_flatMap.mp htx
    rcases List.mem_append.mp hm with hm | hm
    · refine hn.path htree hpar tx (List.mem_flatMap.mpr ⟨m, ?_, htm⟩)
      rw [ChainTree.path_upto htree.rooted hpar hcb]
      exact List.mem_append_right _ hm
    · rw [List.mem_singleton.mp hm, (newNode_eq hnode).2.2.2.1] at htm
      exact hb tx htm

end

end Scytale
