/-
  Scytale.Node.Provenance — where the value of an output comes from
  (apps/scytale-node/src/passbook.rs).

  `provenance` goes from a transaction to the one its first input spends, looking each up in
  the storage, until it is at an issuance. The loop has no bound of its own: it ends because
  an input spends what an earlier transaction of the chain made.
  - `Lineage`: the transactions from one back to a coinbase.
  - `Traced`: every transaction applied so far has a lineage, and every unspent output was
    made by one of them.
  - `provenanceLoop_lineage`: the loop goes along the lineage.
  - `provenance_reaches_issuance`: in the runs in which no block repeats a transaction of its
    chain it ends, at a coinbase.
  - `lineage_without_issuance`: with a coinbase mined twice, a reorganisation deletes the
    issuance of an output that stays.
-/
import Scytale.Node.Restart
import Scytale.Node.Statement

namespace Scytale

open Lib StorageEngine

inductive ProvenanceCategory where
  | coinbase
  | genesis
  | transfer
  deriving DecidableEq

structure ProvenanceStep where
  txid : Hash256
  blockHeight : UInt64
  category : ProvenanceCategory
  valueQuanta : UInt64
  deriving DecidableEq

namespace Passbook

/-- The loop of `provenance` at an outpoint, with the steps so far; `none` is a loop that goes
    on. -/
def provenanceLoop (db : StorageEngine) : Nat → OutPoint → List ProvenanceStep →
    Option (Except PassbookError (List ProvenanceStep))
  | 0, _, _ => none
  | fuel + 1, cur, rev =>
    match lookupTransaction db cur.txid with
    | .error e => some (.error (.nodeError e))
    | .ok none => some (.error (.transactionNotFound cur.txid))
    | .ok (some tx) =>
      let height := (canonicalTransactionHeight db cur.txid).getD 0
      let value := ((tx.outputs[cur.index.toNat]?).map (·.value)).getD 0
      if tx.isCoinbase || height == 0 then
        let category := if height = 0 then ProvenanceCategory.genesis else .coinbase
        some (.ok (rev ++ [⟨cur.txid, height, category, value⟩]))
      else
        let rev := rev ++ [⟨cur.txid, height, .transfer, value⟩]
        match tx.inputs.head?.map (·.previousOutput) with
        | none => some (.ok rev)
        | some op =>
          if op.isNull then some (.ok rev)
          else if op = cur then some (.error (.provenanceLineageBroken cur))
          else match lookupTransaction db op.txid with
            | .error e => some (.error (.nodeError e))
            | .ok none => some (.ok rev)
            | .ok (some _) => provenanceLoop db fuel op rev

def provenance (state : NodeState) (node : Node) (outpoint : OutPoint) (fuel : Nat) :
    Option (Except PassbookError (List ProvenanceStep)) :=
  match requireReady state with
  | .error e => some (.error e)
  | .ok () => (provenanceLoop node.storage fuel outpoint []).map (·.map List.reverse)

end Passbook

variable {H : Hasher} {eng : Engines} {genesis : Block}

/-! ## Lineages -/

/-- The first input of `t` spends an output of `p`. -/
def SpendsFirst (H : Hasher) (p t : Transaction) : Prop :=
  ∃ i, t.inputs.head? = some i ∧ i.previousOutput.txid = p.txid H ∧ i.previousOutput.index.toNat < p.outputs.length

/-- From a transaction back over first inputs to a coinbase, all among these. -/
inductive Lineage (H : Hasher) (txs : List Transaction) : Transaction → List Transaction → Prop where
  | issued {t : Transaction} (ht : t ∈ txs) (hc : t.isCoinbase = true) : Lineage H txs t [t]
  | spent {t p : Transaction} {line : List Transaction} (ht : t ∈ txs) (hc : t.isCoinbase = false)
      (hp : SpendsFirst H p t) (hne : p.txid H ≠ t.txid H) (h : Lineage H txs p line) : Lineage H txs t (t :: line)

namespace Lineage

variable {txs txs' : List Transaction} {t : Transaction} {line : List Transaction}

theorem mono (hsub : txs ⊆ txs') (h : Lineage H txs t line) : Lineage H txs' t line := by
  induction h with
  | issued ht hc => exact .issued (hsub ht) hc
  | spent ht hc hp hne _ ih => exact .spent (hsub ht) hc hp hne ih

theorem mem (h : Lineage H txs t line) : t ∈ txs := by
  cases h with
  | issued ht => exact ht
  | spent ht => exact ht

theorem head (h : Lineage H txs t line) : line.head? = some t := by
  cases h with
  | issued => rfl
  | spent => rfl

theorem issuance (h : Lineage H txs t line) : ∃ c, line.getLast? = some c ∧ c.isCoinbase = true := by
  induction h with
  | issued _ hc => exact ⟨_, rfl, hc⟩
  | spent _ _ _ _ _ ih =>
    obtain ⟨c, hlast, hc⟩ := ih
    exact ⟨c, by rw [List.getLast?_cons, hlast]; rfl, hc⟩

theorem linked (h : Lineage H txs t line) : line.IsChain fun t p => SpendsFirst H p t := by
  induction h with
  | issued => exact List.isChain_singleton _
  | @spent t p line _ _ hp _ hline ih =>
    obtain ⟨rest, rfl⟩ := List.head?_eq_some_iff.mp hline.head
    exact List.isChain_cons_cons.mpr ⟨hp, ih⟩

end Lineage

/-! ## Every transaction of a chain has one -/

/-- The transactions applied so far have lineages, and made every output that is unspent. -/
structure Traced (H : Hasher) (txs : List Transaction) (s : UtxoSet) : Prop where
  made : ∀ (o : OutPoint) (e : UtxoEntry), s.entries[o]? = some e →
    ∃ p ∈ txs, o.txid = p.txid H ∧ o.index.toNat < p.outputs.length
  lines : ∀ t ∈ txs, ∃ line, Lineage H txs t line

theorem traced_new : Traced H [] UtxoSet.new := by
  refine ⟨fun o e h => ?_, by simp⟩
  have hnone : (UtxoSet.new.entries)[o]? = none := Table.get_empty o
  rw [hnone] at h
  cases h

namespace Traced

variable {txs : List Transaction} {s s' s'' : UtxoSet} {t : Transaction} {height : UInt64}

/-- One more transaction, on a set with no more in it. -/
theorem insert {cb : Bool} (h : Traced H txs s) (hsub : ∀ (o : OutPoint) (e : UtxoEntry), s'.entries[o]? = some e →
    s.entries[o]? = some e) (hins : UtxoSet.insertAll s' (UtxoSet.created H height cb t) = (s'', .ok ()))
    (hline : ∃ line, Lineage H (txs ++ [t]) t line) : Traced H (txs ++ [t]) s'' := by
  refine ⟨fun o e ho => ?_, fun a ha => ?_⟩
  · by_cases hmem : o ∈ t.outpoints H
    · refine ⟨t, by simp, outpoints_txid hmem, ?_⟩
      obtain ⟨q, hq, rfl⟩ := List.mem_map.mp hmem
      obtain ⟨j, hj, -, hkey⟩ := createdFrom_output q hq
      rw [hkey, UInt32.toNat_ofNat', Nat.zero_add]
      exact Nat.lt_of_le_of_lt (Nat.mod_le _ _) hj
    · rw [(mem_insertAll hins).2 o hmem] at ho
      obtain ⟨p, hp, hid, hindex⟩ := h.made o e (hsub o e ho)
      exact ⟨p, List.mem_append_left _ hp, hid, hindex⟩
  · rcases List.mem_append.mp ha with ha | ha
    · obtain ⟨line, hl⟩ := h.lines a ha
      exact ⟨line, hl.mono (List.subset_append_left _ _)⟩
    · rw [List.mem_singleton.mp ha]
      exact hline

theorem coinbase (h : Traced H txs s) (hap : UtxoSet.applyCoinbase H s t height = (s', .ok ()))
    (hcb : t.isCoinbase = true) : Traced H (txs ++ [t]) s' :=
  h.insert (fun _ _ ho => ho) (UtxoSet.applyCoinbase_ok hap).2 ⟨[t], .issued (by simp) hcb⟩

/-- The first input of a transaction spends an output that an earlier one made. -/
theorem transaction {fee : UInt64} (h : Traced H txs s) (hap : UtxoSet.applyTransaction H s t height = (s', .ok fee))
    (hcb : t.isCoinbase = false) (hnew : t.txid H ∉ txs.map fun t => t.txid H) : Traced H (txs ++ [t]) s' := by
  obtain ⟨hv, hins, -⟩ := UtxoSet.applyTransaction_ok hap
  obtain ⟨hnonempty, -⟩ := Transaction.validateStateless_ok hv
  obtain ⟨i, hi⟩ : ∃ i, t.inputs.head? = some i := Option.isSome_iff_exists.mp (by simpa using hnonempty)
  obtain ⟨e, he⟩ := UtxoSet.applyTransaction_unspent hap _ (List.mem_map.mpr ⟨i, List.mem_of_mem_head? hi, rfl⟩)
  obtain ⟨p, hp, hid, hindex⟩ := h.made _ e he
  obtain ⟨line, hl⟩ := h.lines p hp
  refine h.insert (fun o x ho => ?_) hins
    ⟨t :: line, .spent (by simp) hcb ⟨i, hi, hid, hindex⟩ ?_ (hl.mono (List.subset_append_left _ _))⟩
  · rw [UtxoSet.get_removeInputs] at ho
    split at ho
    · cases ho
    · exact ho
  · exact fun same => hnew (same ▸ List.mem_map.mpr ⟨p, hp, rfl⟩)

theorem rest {rest : List Transaction} : ∀ {txs : List Transaction} {s s' : UtxoSet} {fees fees' : UInt64},
    Traced H txs s → UtxoSet.applyRest H height s fees rest = .ok (s', fees') →
    ((txs ++ rest).map fun t => t.txid H).Nodup → Traced H (txs ++ rest) s' := by
  induction rest with
  | nil => intro txs s s' fees fees' h hap _; cases hap; simpa using h
  | cons t rest ih =>
    intro txs s s' fees fees' h hap hids
    obtain ⟨hcb, s₁, fee, fees₁, hap₁, -, hrest⟩ := UtxoSet.applyRest_cons hap
    have hnew : t.txid H ∉ txs.map fun t => t.txid H := fun hm => by
      rw [List.map_append] at hids
      exact (List.nodup_append.mp hids).2.2 _ hm _ (by simp) rfl
    rw [List.append_cons] at hids ⊢
    exact ih (h.transaction hap₁ hcb hnew) hrest hids

theorem replayed {ns : List BlockNode} : ∀ {txs : List Transaction} {s s' : UtxoSet}, Traced H txs s →
    replay H s ns = .ok s' → ((txs ++ chainTxs ns).map fun t => t.txid H).Nodup → Traced H (txs ++ chainTxs ns) s' := by
  induction ns with
  | nil => intro txs s s' h hap _; cases hap; simpa [chainTxs] using h
  | cons n ns ih =>
    intro txs s s' h hap hids
    obtain ⟨s₁, fees, hblock, hlater⟩ := replay_cons hap
    obtain ⟨cb, rest, s₂, htxs, hcb, hapcb, hrest⟩ := UtxoSet.applyBlock_ok hblock
    have hassoc : txs ++ chainTxs (n :: ns) = ((txs ++ [cb]) ++ rest) ++ chainTxs ns := by
      simp [chainTxs, htxs]
    rw [hassoc] at hids ⊢
    refine ih ((h.coinbase hapcb hcb).rest hrest ?_) hlater hids
    rw [List.map_append] at hids
    exact (List.nodup_append.mp hids).1

end Traced

theorem Indexable.lineage {path : List BlockNode} (h : Indexable H path) {t : Transaction} (ht : t ∈ chainTxs path) :
    ∃ line, Lineage H (chainTxs path) t line := by
  obtain ⟨s, hs⟩ := h.replayed
  have htraced := traced_new.replayed hs (by simpa using h.identified.ids)
  rw [List.nil_append] at htraced
  exact htraced.lines t ht

/-! ## The loop -/

section
variable {db : StorageEngine} {path : List BlockNode}

theorem Indexed.lookup (h : Indexed H db path) (hid : Identified H (chainTxs path)) {t : Transaction}
    (ht : t ∈ chainTxs path) : lookupTransaction db (t.txid H) = .ok (some t) := by
  have hrow := (h.transactions (t.txid H) t).mpr (List.mem_map.mpr ⟨t, ht, rfl⟩)
  simp only [lookupTransaction, getTransaction, hrow, hid.readable t ht, if_true]
  rfl

theorem Indexed.height (h : Indexed H db path) {n : BlockNode} (hn : n ∈ path) {t : Transaction}
    (ht : t ∈ n.block.transactions) : canonicalTransactionHeight db (t.txid H) = some n.height := by
  have hrow := (h.confirmed (t.txid H) (n.hash, n.height)).mpr
    (List.mem_flatMap.mpr ⟨n, hn, List.mem_map.mpr ⟨t, ht, rfl⟩⟩)
  rw [canonicalTransactionHeight, getTransactionHeight, hrow]
  rfl

/-- The category of a transaction in a block at this height. -/
def categoryAt (t : Transaction) (height : UInt64) : ProvenanceCategory :=
  if t.isCoinbase then if height = 0 then .genesis else .coinbase else .transfer

/-- The step tells where on the path the transaction is, and what it is. -/
def StandsFor (H : Hasher) (path : List BlockNode) (t : Transaction) (s : ProvenanceStep) : Prop :=
  s.txid = t.txid H ∧ ∃ n ∈ path, t ∈ n.block.transactions ∧ s.blockHeight = n.height ∧ s.category = categoryAt t n.height

/-- An outpoint of a transaction that can be read back is not the null one. -/
theorem not_null_of_index {o : OutPoint} {p : Transaction} (hp : p.decodable = true)
    (h : o.index.toNat < p.outputs.length) : o.isNull = false := by
  have hmax : maxVectorLength = 16777216 := rfl
  simp only [Transaction.decodable, Bool.and_eq_true, decide_eq_true_eq] at hp
  have hne : (o.index == 0xffffffff) = false := by
    rw [beq_eq_false_iff_ne]
    intro e
    rw [e] at h
    have hlast : (0xffffffff : UInt32).toNat = 4294967295 := rfl
    omega
  simp [OutPoint.isNull, hne]

/-- On tables with the rows of a path the loop goes along the lineage, however it got there,
    in as many rounds as it has transactions. Only issuances are in block 0. -/
theorem provenanceLoop_lineage (h : Indexed H db path) (hid : Identified H (chainTxs path))
    (hfirst : ∀ n ∈ path, n.height = 0 → ∀ t ∈ n.block.transactions, t.isCoinbase = true) {t : Transaction}
    {line : List Transaction} (hline : Lineage H (chainTxs path) t line) : ∀ {cur : OutPoint}, cur.txid = t.txid H →
      ∃ steps, List.Forall₂ (StandsFor H path) line steps ∧ ∀ rev fuel, line.length ≤ fuel →
        Passbook.provenanceLoop db fuel cur rev = some (.ok (rev ++ steps)) := by
  induction hline with
  | @issued t ht hc =>
    intro cur hcur
    obtain ⟨n, hn, htn⟩ := List.mem_flatMap.mp ht
    refine ⟨[⟨cur.txid, n.height, categoryAt t n.height, ((t.outputs[cur.index.toNat]?).map (·.value)).getD 0⟩],
      .cons ⟨hcur, n, hn, htn, rfl, rfl⟩ .nil, fun rev fuel hfuel => ?_⟩
    obtain ⟨fuel, rfl⟩ := Nat.exists_eq_add_of_le' hfuel
    simp only [List.length_singleton, Passbook.provenanceLoop, hcur, h.lookup hid ht, h.height hn htn, hc, categoryAt,
      Option.getD_some, Bool.true_or, if_true]
  | @spent t p line ht hc hp hne hrest ih =>
    obtain ⟨i, hi, hid', hindex⟩ := hp
    intro cur hcur
    obtain ⟨n, hn, htn⟩ := List.mem_flatMap.mp ht
    obtain ⟨steps, hstands, hloop⟩ := ih hid'
    refine ⟨⟨cur.txid, n.height, .transfer, ((t.outputs[cur.index.toNat]?).map (·.value)).getD 0⟩ :: steps,
      .cons ⟨hcur, n, hn, htn, rfl, by simp [categoryAt, hc]⟩ hstands, fun rev fuel hfuel => ?_⟩
    rw [List.length_cons] at hfuel
    obtain ⟨fuel, rfl⟩ := Nat.exists_eq_add_of_le' (Nat.le_trans (Nat.le_add_left 1 _) hfuel)
    have hlater : (n.height == 0) = false := by
      rw [beq_eq_false_iff_ne]
      intro hz
      rw [hfirst n hn hz t htn] at hc
      cases hc
    have hnull := not_null_of_index (hid.readable p hrest.mem) hindex
    have hother : i.previousOutput ≠ cur := fun e => hne (by rw [← hid', e, hcur])
    simp only [Passbook.provenanceLoop, hcur, h.lookup hid ht, h.height hn htn, hc, Option.getD_some, hlater, Bool.or_self,
      hi, Option.map_some, hnull, hother, hid', h.lookup hid hrest.mem, if_false, Bool.false_eq_true]
    rw [hloop _ fuel (by omega), List.append_assoc, List.singleton_append]

end

/-! ## Runs -/

/-- The steps stand for transactions of the path, in their order: the first is a coinbase,
    each other spends with its first input an output of the one before it, and the last is
    the transaction of the outpoint. -/
structure FromIssuance (H : Hasher) (path : List BlockNode) (outpoint : OutPoint) (line : List Transaction)
    (steps : List ProvenanceStep) : Prop where
  stands : List.Forall₂ (StandsFor H path) line steps
  issuance : ∃ t s, line.head? = some t ∧ steps.head? = some s ∧ t.isCoinbase = true ∧ s.category ≠ .transfer ∧
    (s.category = .genesis ↔ ∃ n ∈ path, n.height = 0 ∧ t ∈ n.block.transactions)
  linked : line.IsChain (SpendsFirst H)
  ends : (steps.getLast?).map (·.txid) = some outpoint.txid

/-- A coinbase is a genesis issuance exactly in block 0. -/
theorem Indexed.genesis_iff {db : StorageEngine} {path : List BlockNode} (h : Indexed H db path) {t : Transaction}
    {s : ProvenanceStep} (hs : StandsFor H path t s) (hc : t.isCoinbase = true) : s.category ≠ .transfer ∧
      (s.category = .genesis ↔ ∃ n ∈ path, n.height = 0 ∧ t ∈ n.block.transactions) := by
  obtain ⟨-, n, hn, htn, -, hcategory⟩ := hs
  rw [hcategory, categoryAt, if_pos hc]
  by_cases hz : n.height = 0
  · rw [if_pos hz]
    exact ⟨nofun, fun _ => ⟨n, hn, hz, htn⟩, fun _ => rfl⟩
  · rw [if_neg hz]
    refine ⟨nofun, nofun, ?_⟩
    rintro ⟨m, hm, hm0, htm⟩
    have hsame := (h.height hn htn).symm.trans (h.height hm htm)
    exact absurd ((Option.some.inj hsame).trans hm0) hz

/-- Block 0 has the genesis coinbase only. -/
theorem Settled.first_issues {bits : UInt32} {node : Node} (h : Settled H (buildGenesisBlock H bits) node) :
    ∀ n ∈ node.chain.tree.getPathFromGenesis node.chain.tree.canonicalTip, n.height = 0 →
      ∀ t ∈ n.block.transactions, t.isCoinbase = true := by
  obtain ⟨tip, htip⟩ := h.state.tree.tip
  intro n hn hz t ht
  obtain ⟨k, hk⟩ := h.state.tree.mem_path htip hn
  have hroot := h.state.tree.rooted.eq_root hk (congrArg UInt64.toNat hz)
  rw [hroot, h.state.tree.root] at hk
  cases hk
  rw [List.mem_singleton.mp ht]
  rfl

/-- In every node of every run without snapshots in which no block repeats a transaction of
    its chain, for every outpoint of a stored transaction: the loop ends, after as many rounds
    as the answer has steps, and the answer leads from an issuance to the transaction. -/
theorem provenance_reaches_issuance {node : Node} (hr : RepeatlessRun H eng node) {state : NodeState}
    (hready : Passbook.requireReady state = .ok ()) {outpoint : OutPoint} {tx : Transaction}
    (hstored : node.storage.transactions[outpoint.txid]? = some tx) : ∃ line steps,
      FromIssuance H (node.chain.tree.getPathFromGenesis node.chain.tree.canonicalTip) outpoint line steps ∧
        ∀ fuel, steps.length ≤ fuel → Passbook.provenance state node outpoint fuel = some (.ok steps) := by
  obtain ⟨bits, h⟩ := repeatlessRun_settled hr
  have hindexed := h.kept.indexed
  obtain ⟨t, ht, hrow⟩ := List.mem_map.mp ((hindexed.transactions _ _).mp hstored)
  simp only [Prod.mk.injEq] at hrow
  obtain ⟨hid, rfl⟩ := hrow
  obtain ⟨line, hline⟩ := h.indexable.lineage ht
  obtain ⟨steps, hstands, hloop⟩ := provenanceLoop_lineage hindexed h.indexable.identified h.first_issues hline hid.symm
  have hlength := hstands.length_eq
  refine ⟨line.reverse, steps.reverse, ⟨List.rel_reverse hstands, ?_, ?_, ?_⟩, fun fuel hfuel => ?_⟩
  · -- the loop stopped at the coinbase
    obtain ⟨c, hlast, hc⟩ := hline.issuance
    have hback := List.rel_reverse hstands
    rw [← List.head?_reverse] at hlast
    obtain ⟨others, hothers⟩ := List.head?_eq_some_iff.mp hlast
    rw [hothers] at hback
    cases hsteps : steps.reverse with
    | nil =>
      rw [hsteps] at hback
      cases hback
    | cons s rest =>
      rw [hsteps] at hback
      obtain ⟨hs, -⟩ := List.forall₂_cons.mp hback
      exact ⟨c, s, hlast, rfl, hc, hindexed.genesis_iff hs hc⟩
  · exact List.isChain_reverse.mpr hline.linked
  · obtain ⟨others, rfl⟩ := List.head?_eq_some_iff.mp hline.head
    cases hstands with
    | cons hs _ => simp [hs.1, hid]
  · rw [List.length_reverse, ← hlength] at hfuel
    simp only [Passbook.provenance, hready, hloop [] fuel hfuel]
    rfl

/-- It spends the sample coinbase's output, and pays the whole on. -/
def passedOn (H : Hasher) : Transaction :=
  ⟨transactionVersion1, [TxIn.new ⟨sampleCoinbase.txid H, 0⟩ []], [⟨2500000000, [0x51]⟩], 0⟩

/-- A block that spends its own coinbase. -/
def issuingBlock (H : Hasher) : Block :=
  mined H (freshNode H).chain.tree.canonicalTip (freshNode H).chain.utxo 1 60 [sampleCoinbase, passedOn H]

def issuedNode (H : Hasher) : Node := submitAll H (freshNode H) [issuingBlock H]

set_option maxRecDepth 10000 in
/-- Its second transaction. -/
theorem provenance_reaches_issuance_passed : ∃ line steps,
    FromIssuance Blake3.digest ((issuedNode Blake3.digest).chain.tree.getPathFromGenesis
      (issuedNode Blake3.digest).chain.tree.canonicalTip) ⟨(passedOn Blake3.digest).txid Blake3.digest, 0⟩ line steps ∧
      ∀ fuel, steps.length ≤ fuel → Passbook.provenance .ready (issuedNode Blake3.digest)
        ⟨(passedOn Blake3.digest).txid Blake3.digest, 0⟩ fuel = some (.ok steps) := by
  have hop : Repeatless Blake3.digest (freshNode Blake3.digest)
      (.submitBlock (some 1000) none (issuingBlock Blake3.digest)) := by
    refine ⟨id, trivial, fun b hb => ?_⟩
    cases hb
    exact ⟨by decide +kernel, by decide +kernel⟩
  have hrun : RepeatlessRun Blake3.digest acceptAll (issuedNode Blake3.digest) :=
    .step (.fresh freshNode_recovered) _ hop fun b hb => by
      cases hb
      decide +kernel
  have hstored : (issuedNode Blake3.digest).storage.transactions[(passedOn Blake3.digest).txid Blake3.digest]? =
      some (passedOn Blake3.digest) := by decide +kernel
  exact provenance_reaches_issuance hrun rfl hstored

/-! ## One coinbase in two blocks of a chain -/

/-- The coinbase again, on a chain that spent its output. -/
def issuingAgain (H : Hasher) : Block :=
  mined H ((issuingBlock H).header.hash H) (issuedNode H).chain.utxo 2 120 [sampleCoinbase]

/-- Two other blocks on the first. -/
def otherSecond (H : Hasher) : Block :=
  payingBlock H ((issuingBlock H).header.hash H) (issuedNode H).chain.utxo 2 130 [0x51]

def otherThird (H : Hasher) : Block :=
  payingBlock H ((otherSecond H).header.hash H) (submitAll H (freshNode H) [issuingBlock H, otherSecond H]).chain.utxo 3 190
    [0x51]

/-- The node that took the four blocks. -/
def untracedNode (H : Hasher) : Node :=
  submitAll H (freshNode H) [issuingBlock H, issuingAgain H, otherSecond H, otherThird H]

set_option maxRecDepth 10000 in
/-- The last block moves the tip and takes the second of the two coinbases back. The first is
    still in the chain, and not among the stored transactions, so the way back from what was
    paid on ends before it. -/
theorem lineage_without_issuance :
    NodeReach Blake3.digest acceptAll (fun _ op => op.isSubmit) (freshNode Blake3.digest) (untracedNode Blake3.digest) ∧
      (untracedNode Blake3.digest).storage.transactions[(passedOn Blake3.digest).txid Blake3.digest]? =
        some (passedOn Blake3.digest) ∧
      ¬∃ line steps, FromIssuance Blake3.digest ((untracedNode Blake3.digest).chain.tree.getPathFromGenesis
          (untracedNode Blake3.digest).chain.tree.canonicalTip) ⟨(passedOn Blake3.digest).txid Blake3.digest, 0⟩ line steps ∧
        ∀ fuel, steps.length ≤ fuel → Passbook.provenance .ready (untracedNode Blake3.digest)
          ⟨(passedOn Blake3.digest).txid Blake3.digest, 0⟩ fuel = some (.ok steps) := by
  have hrun : (untracedNode Blake3.digest).storage.transactions[(passedOn Blake3.digest).txid Blake3.digest]? =
        some (passedOn Blake3.digest) ∧
      lookupTransaction (untracedNode Blake3.digest).storage ((passedOn Blake3.digest).txid Blake3.digest) =
        .ok (some (passedOn Blake3.digest)) ∧
      canonicalTransactionHeight (untracedNode Blake3.digest).storage ((passedOn Blake3.digest).txid Blake3.digest) = some 1 ∧
      lookupTransaction (untracedNode Blake3.digest).storage (sampleCoinbase.txid Blake3.digest) = .ok none := by
    decide +kernel
  obtain ⟨hstored, hlookup, hheight, hgone⟩ := hrun
  refine ⟨submitAll_reached .start, hstored, ?_⟩
  rintro ⟨line, steps, hissued, hloop⟩
  obtain ⟨t, s, -, hs, -, hnotTransfer, -⟩ := hissued.issuance
  have hone := hloop (steps.length + 1) (Nat.le_succ _)
  have hcoinbase : (passedOn Blake3.digest).isCoinbase = false := by decide +kernel
  have hinput : (passedOn Blake3.digest).inputs.head?.map (·.previousOutput) = some ⟨sampleCoinbase.txid Blake3.digest, 0⟩ :=
    rfl
  have hnull : OutPoint.isNull ⟨sampleCoinbase.txid Blake3.digest, 0⟩ = false := by decide +kernel
  have hother : (⟨sampleCoinbase.txid Blake3.digest, 0⟩ : OutPoint) ≠ ⟨(passedOn Blake3.digest).txid Blake3.digest, 0⟩ := by
    decide +kernel
  simp only [Passbook.provenance, Passbook.requireReady, Passbook.provenanceLoop, hlookup, hheight, hcoinbase, hinput, hnull,
    hother, hgone, Option.getD_some, Bool.false_or, if_false, Bool.false_eq_true] at hone
  cases hone
  cases hs
  exact hnotTransfer rfl

end Scytale
