/-
  Scytale.Mempool.Dependencies — the dependency maps against the inputs of the entries
  (crates/scytale-mempool/src/pool.rs).

  The links are made once, when the child is admitted, for the inputs that are not unspent in
  the set, and before room is made; a confirmed parent leaves its children's rows behind.
  - `LinksExact.commit`, `Removed.linksExact`, `linksExact_connect`: when a commit, a removal
    and a connected block keep the maps exact.
  - `dependency_graph_exact`: in every run whose steps meet these conditions the maps are
    exactly "both are in the pool and the one spends an output of the other".
  - `confirmed_parent_stays_linked`: a block that confirms the parent alone.
-/
import Scytale.Mempool.Links

namespace Scytale

open Lib

/-- `t` spends an output of `tp`, whose identifier is `p`. -/
def SpendsOutputOf (t : Transaction) (p : Hash256) (tp : Transaction) : Prop :=
  ∃ i ∈ t.inputs, i.previousOutput.txid = p ∧ i.previousOutput.index.toNat < tp.outputs.length

namespace Mempool

/-- Both are in the pool, and `c` spends an output of `p`. -/
def Depends (m : Mempool) (c p : Hash256) : Prop := ∃ ec ep : MempoolEntry, m.entries[c]? = some ec ∧
  m.entries[p]? = some ep ∧ SpendsOutputOf ec.transaction p ep.transaction

/-- The dependency maps are the dependencies, from both sides. -/
structure LinksExact (m : Mempool) : Prop where
  up : ∀ c p, m.Up c p ↔ m.Depends c p
  down : ∀ p c, m.Down p c ↔ m.Depends c p

/-- The output is one of an entry. -/
def HasOutput (m : Mempool) (o : OutPoint) : Prop :=
  ∃ e : MempoolEntry, m.entries[o.txid]? = some e ∧ o.index.toNat < e.transaction.outputs.length

variable {m m' : Mempool}

theorem linksExact_withConfig (maxCount maxBytes : Nat) (minFeeRate : UInt64) :
    LinksExact (withConfig maxCount maxBytes minFeeRate) := by
  have hno : ∀ c p, ¬(withConfig maxCount maxBytes minFeeRate).Depends c p := by
    rintro c p ⟨ec, ep, hc, -⟩
    have hc : (∅ : Table Hash256 MempoolEntry)[c]? = some ec := hc
    rw [Table.get_empty] at hc
    cases hc
  exact ⟨fun c p => iff_of_false (Table.not_linked_empty c p) (hno c p),
    fun p c => iff_of_false (Table.not_linked_empty p c) (hno c p)⟩

/-! ## Removals -/

theorem Cut.depends {gone forgotten : Hash256 → Prop} (h : Cut m m' gone forgotten) (c p : Hash256) :
    m'.Depends c p ↔ ¬gone c ∧ ¬gone p ∧ m.Depends c p := by
  constructor
  · rintro ⟨ec, ep, hc, hp, hs⟩
    obtain ⟨hgc, hc⟩ := (h.entries c ec).mp hc
    obtain ⟨hgp, hp⟩ := (h.entries p ep).mp hp
    exact ⟨hgc, hgp, ec, ep, hc, hp, hs⟩
  · rintro ⟨hgc, hgp, ec, ep, hc, hp, hs⟩
    exact ⟨ec, ep, (h.entries c ec).mpr ⟨hgc, hc⟩, (h.entries p ep).mpr ⟨hgp, hp⟩, hs⟩

/-- What leaves with all its children leaves the links of the others exact. -/
theorem Removed.linksExact {gone : Hash256 → Prop} (hr : Removed m m' gone) (h : LinksExact m) : LinksExact m' := by
  have hclosed : ∀ c p, gone p → m.Depends c p → gone c := fun c p hp hd => hr.closed p c hp ((h.down p c).mpr hd)
  constructor
  · intro c p
    rw [hr.cut.up, hr.cut.depends, h.up]
    have := hclosed c p
    tauto
  · intro p c
    rw [hr.cut.down, hr.cut.depends, h.down, h.up]
    have := hclosed c p
    tauto

/-! ## Connected blocks -/

/-- What leaves after a block: the broken, and with them their descendants. -/
inductive Dropped (m : Mempool) (utxos : UtxoSet) : Hash256 → Prop where
  | broken {id : Hash256} (h : m.Broken utxos id) : Dropped m utxos id
  | child {p c : Hash256} (hp : Dropped m utxos p) (h : m.Depends c p) : Dropped m utxos c

/-- The children of the confirmed entries are confirmed too, or leave with the broken. -/
def ConfirmsFamilies (H : Hasher) (m : Mempool) (block : Block) (utxos : UtxoSet) : Prop :=
  ∀ c p, m.Depends c p → Confirms H block p → Confirms H block c ∨ (m.confirmAll H block).Dropped utxos c

theorem linksExact_connect {H : Hasher} {block : Block} {utxos : UtxoSet} (h : LinksExact m)
    (hf : ConfirmsFamilies H m block utxos) : LinksExact (m.onBlockConnected H block utxos) := by
  have hconf := confirmAll_cut H m block
  obtain ⟨gone, hr, hbroken⟩ := onBlockConnected_cut H m block utxos
  have hdropped : ∀ id, (m.confirmAll H block).Dropped utxos id → gone id := by
    intro id hd
    induction hd with
    | broken hb => exact hbroken _ hb
    | @child p c _ hd ih =>
      -- the confirmed ones apart, the rows are still exact
      obtain ⟨hc, -, hd⟩ := (hconf.depends c p).mp hd
      exact hr.closed p c ih ((hconf.down p c).mpr ⟨not_false, (h.down p c).mpr hd, fun hg => hc hg.1⟩)
  have hfamily : ∀ c p, m.Depends c p → Confirms H block p → Confirms H block c ∨ gone c := fun c p hd hp =>
    (hf c p hd hp).imp id (hdropped c)
  have hclosed : ∀ c p, gone p → m.Depends c p → ¬Confirms H block c → gone c := fun c p hp hd hc =>
    hr.closed p c hp ((hconf.down p c).mpr ⟨not_false, (h.down p c).mpr hd, fun hg => hc hg.1⟩)
  constructor
  · intro c p
    rw [hr.cut.up, hr.cut.depends, hconf.up, hconf.depends, h.up]
    have := hfamily c p
    have := hclosed c p
    tauto
  · intro p c
    rw [hr.cut.down, hr.cut.depends, hconf.down, hconf.up, hconf.depends, h.down, h.up]
    have := hfamily c p
    have := hclosed c p
    tauto

/-! ## Commits -/

/-- The parents are those of the inputs that are not unspent in the set, and these are outputs
    of entries. -/
theorem resolveInputs_ok {utxos : UtxoSet} {is : List TxIn} : ∀ {es es' : List UtxoEntry} {ps ps' : TxidSet},
    m.resolveInputs utxos es ps is = .ok (es', ps') →
      (∀ p, ps'[p]? = some () ↔
        ps[p]? = some () ∨ ∃ i ∈ is, i.previousOutput.txid = p ∧ utxos.entries[i.previousOutput]? = none) ∧
      ∀ i ∈ is, utxos.entries[i.previousOutput]? = none → m.HasOutput i.previousOutput := by
  induction is with
  | nil => intro es es' ps ps' h; cases h; simp
  | cons i is ih =>
    intro es es' ps ps' h
    unfold resolveInputs at h
    simp only at h
    split at h
    · rename_i entry hentry
      obtain ⟨hps, hall⟩ := ih h
      refine ⟨fun p => ?_, fun j hj hnone => ?_⟩
      · rw [hps, List.exists_mem_cons_iff, hentry]
        simp
      · rcases List.mem_cons.mp hj with rfl | hj
        · rw [hentry] at hnone
          cases hnone
        · exact hall j hj hnone
    · rename_i hnone
      split at h
      · cases h
      · rename_i parent hparent
        split at h
        · cases h
        · rename_i out hout
          obtain ⟨hps, hall⟩ := ih h
          refine ⟨fun p => ?_, fun j hj hj' => ?_⟩
          · rw [hps, List.exists_mem_cons_iff, hnone, Table.get_insert]
            by_cases hp : i.previousOutput.txid = p
            · simp [hp]
            · simp [hp]
          · rcases List.mem_cons.mp hj with rfl | hj
            · exact ⟨parent, hparent, (List.getElem?_eq_some_iff.mp hout).1⟩
            · exact hall j hj hj'

/-- In the pool the entry is committed to: its parents are there, none of the entries spends an
    output of it, and it spends no output of an entry, nor of its own, but by an input that is
    not unspent in the set. -/
structure CommitsClean (utxos : UtxoSet) (m : Mempool) (entry : MempoolEntry) : Prop where
  parents : ∀ i ∈ entry.transaction.inputs, utxos.entries[i.previousOutput]? = none →
    ∃ ep, m.entries[i.previousOutput.txid]? = some ep
  childless : ∀ (c : Hash256) (ec : MempoolEntry), m.entries[c]? = some ec →
    ¬SpendsOutputOf ec.transaction entry.txid entry.transaction
  pending : ∀ (p : Hash256) (ep : MempoolEntry), m.entries[p]? = some ep ∨ (p = entry.txid ∧ ep = entry) →
    SpendsOutputOf entry.transaction p ep.transaction →
      ∃ i ∈ entry.transaction.inputs, i.previousOutput.txid = p ∧ utxos.entries[i.previousOutput]? = none

/-- An admission that commits does so cleanly. -/
def AdmitsClean (H : Hasher) (m : Mempool) (tx : Transaction) (utxos : UtxoSet) (verifier : AuthorizationVerifier)
    (now : UInt64) : Prop := ∀ entry parents m₁, Admits H m tx utxos verifier now entry parents →
  makeRoom entry (m.priorityIndex.size + 1) m = (m₁, .ok ()) → CommitsClean utxos m₁ entry

theorem LinksExact.commit {utxos : UtxoSet} {entry : MempoolEntry} {parents : TxidSet} (h : LinksExact m)
    (hw : Table.Within m.entries m'.entries) (hfresh : m'.entries[entry.txid]? = none)
    (hparents : ∀ p, parents[p]? = some () ↔
      ∃ i ∈ entry.transaction.inputs, i.previousOutput.txid = p ∧ utxos.entries[i.previousOutput]? = none)
    (houtputs : ∀ i ∈ entry.transaction.inputs, utxos.entries[i.previousOutput]? = none → m'.HasOutput i.previousOutput)
    (hc : CommitsClean utxos m entry) : LinksExact (m.commitEntry entry parents) := by
  have hnone : m.entries[entry.txid]? = none := by
    cases hg : m.entries[entry.txid]? with
    | none => rfl
    | some e =>
      have := hw _ _ hg
      rw [hfresh] at this
      cases this
  have hget := get_commitEntry_of_fresh hnone parents
  have hkey : ∀ c p, (m.Depends c p ∨ (c = entry.txid ∧ parents[p]? = some ())) ↔
      (m.commitEntry entry parents).Depends c p := by
    intro c p
    constructor
    · rintro (⟨ec, ep, hec, hep, hs⟩ | ⟨rfl, hp⟩)
      · exact ⟨ec, ep, (hget c ec).mpr (.inr hec), (hget p ep).mpr (.inr hep), hs⟩
      · obtain ⟨i, hi, rfl, hu⟩ := (hparents p).mp hp
        obtain ⟨ep, hep⟩ := hc.parents i hi hu
        obtain ⟨e, he, hlt⟩ := houtputs i hi hu
        obtain rfl : e = ep := Option.some.inj (he.symm.trans (hw _ _ hep))
        exact ⟨entry, e, (hget _ _).mpr (.inl ⟨rfl, rfl⟩), (hget _ _).mpr (.inr hep), i, hi, rfl, hlt⟩
    · rintro ⟨ec, ep, hec, hep, hs⟩
      have hep := (hget p ep).mp hep
      rcases (hget c ec).mp hec with ⟨rfl, rfl⟩ | hec'
      · exact .inr ⟨rfl, (hparents p).mpr (hc.pending p ep hep.symm hs)⟩
      · rcases hep with ⟨rfl, rfl⟩ | hep
        · exact absurd hs (hc.childless c ec hec')
        · exact .inl ⟨ec, ep, hec', hep, hs⟩
  have hnew : ∀ p, ¬m.Up entry.txid p := by
    intro p hu
    obtain ⟨ec, -, hec, -⟩ := (h.up _ _).mp hu
    rw [hnone] at hec
    cases hec
  exact ⟨fun c p => by rw [commit_up hnew, h.up, hkey], fun p c => by rw [commit_down, h.down, hkey]⟩

theorem linksExact_admission {H : Hasher} {tx : Transaction} {utxos : UtxoSet} {verifier : AuthorizationVerifier} {now : UInt64}
    (h : LinksExact m) (hclean : AdmitsClean H m tx utxos verifier now) :
    LinksExact (m.admitTransaction H tx utxos verifier now).1 := by
  refine admission_cut h (fun hr => hr.linksExact h) fun {entry parents m₁ gone} hadm hroom hr hk => ?_
  have hw := makeRoom_within entry (m.priorityIndex.size + 1) m
  rw [hroom] at hw
  obtain ⟨htx, hid, -⟩ := hadm.entry_eq
  obtain ⟨es, hresolve, -⟩ := hadm.resolved
  obtain ⟨hparents, houtputs⟩ := resolveInputs_ok hresolve
  refine hk.commit hw (by rw [hid]; exact hadm.fresh) (fun p => ?_) ?_ (hclean entry parents m₁ hadm hroom)
  · rw [hparents, htx]
    simp
  · rw [htx]
    exact houtputs

/-- Each admission of a reorganisation is clean where it is made. -/
def ReadmitsClean (H : Hasher) (utxos : UtxoSet) (verifier : AuthorizationVerifier) (now : UInt64) :
    Mempool → List Transaction → Prop
  | _, [] => True
  | m, tx :: txs => (tx.isCoinbase = false → AdmitsClean H m tx utxos verifier now) ∧
      ReadmitsClean H utxos verifier now (m.takeBack H utxos verifier now tx) txs

theorem linksExact_reorg {H : Hasher} {utxos : UtxoSet} {verifier : AuthorizationVerifier} {now : UInt64}
    {txs : List Transaction} : ∀ {m : Mempool}, LinksExact m → ReadmitsClean H utxos verifier now m txs →
      LinksExact (txs.foldl (takeBack H utxos verifier now) m) := by
  induction txs with
  | nil => intro m h _; exact h
  | cons tx txs ih =>
    intro m h ⟨hclean, hrest⟩
    rw [List.foldl_cons]
    refine ih ?_ hrest
    unfold takeBack
    split
    · exact h
    · rename_i hcb
      exact linksExact_admission h (hclean (by simpa using hcb))

end Mempool

/-- The step does nothing the dependency maps do not follow. -/
def PoolOp.KeepsLinks (H : Hasher) (m : Mempool) : PoolOp → Prop
  | .admitTx tx utxos verifier now => m.AdmitsClean H tx utxos verifier now
  | .remove _ => True
  | .connect block utxos => m.ConfirmsFamilies H block utxos
  | .reorg txs utxos verifier now => m.ReadmitsClean H utxos verifier now txs

/-- In every run whose steps keep the links, in every state: `p` is in `child_to_parents[c]`
    exactly when both are in the pool and `c` spends an output of `p`, and `parent_to_children`
    is the inverse. -/
theorem dependency_graph_exact {H : Hasher} {m : Mempool} (h : PoolRun H (PoolOp.KeepsLinks H) m) : m.LinksExact :=
  h.keeps Mempool.linksExact_withConfig fun m op hm hop => by
    cases op with
    | admitTx tx utxos verifier now => exact Mempool.linksExact_admission hm hop
    | remove txid =>
      obtain ⟨gone, hr, -⟩ := Mempool.removal_cut m txid
      exact hr.linksExact hm
    | connect block utxos => exact Mempool.linksExact_connect hm hop
    | reorg txs utxos verifier now =>
      rw [Mempool.step, Mempool.onReorg_fst]
      exact Mempool.linksExact_reorg hm hop

/-! ### A parent and its child -/

/-- The pool with the parent alone. -/
def parentPool (H : Hasher) : Mempool := (smallPool 10).step H (admitFunded parentTx)

/-- What the admission of the child works out. -/
theorem childTx_examined : (parentPool Blake3.digest).examine Blake3.digest (childTx Blake3.digest) funding
    (fun _ _ _ => .ok ()) 100 = .ok (MempoolEntry.new Blake3.digest (childTx Blake3.digest) 4000 100,
      (∅ : TxidSet).insert (parentTx.txid Blake3.digest) ()) := by decide +kernel

set_option maxRecDepth 10000 in
theorem parentPool_entry {id : Hash256} {e : MempoolEntry} (he : (parentPool Blake3.digest).entries[id]? = some e) :
    id = parentTx.txid Blake3.digest ∧ e = MempoolEntry.new Blake3.digest parentTx 1000 100 := by
  have hone : (parentPool Blake3.digest).entries = (∅ : Table Hash256 MempoolEntry).insert (parentTx.txid Blake3.digest)
      (MempoolEntry.new Blake3.digest parentTx 1000 100) := by decide +kernel
  rw [hone, Table.get_insert] at he
  split at he
  · rename_i hid
    exact ⟨hid.symm, (Option.some.inj he).symm⟩
  · rw [Table.get_empty] at he
    cases he

/-- The child is admitted to the pool with the parent, which stays as it is. -/
theorem childTx_room {entry : MempoolEntry} {parents : TxidSet} {m₁ : Mempool}
    (hadm : Mempool.Admits Blake3.digest (parentPool Blake3.digest) (childTx Blake3.digest) funding (fun _ _ _ => .ok ()) 100
      entry parents)
    (hroom : Mempool.makeRoom entry ((parentPool Blake3.digest).priorityIndex.size + 1) (parentPool Blake3.digest) =
      (m₁, .ok ())) : m₁ = parentPool Blake3.digest := by
  have hex := Mempool.examine_ok_iff.mpr hadm
  rw [childTx_examined] at hex
  obtain ⟨rfl, rfl⟩ := Prod.mk.inj (Except.ok.inj hex)
  have hkept : Mempool.makeRoom (MempoolEntry.new Blake3.digest (childTx Blake3.digest) 4000 100)
      ((parentPool Blake3.digest).priorityIndex.size + 1) (parentPool Blake3.digest) =
        (parentPool Blake3.digest, .ok ()) := by decide +kernel
  exact (Prod.mk.inj (hroom.symm.trans hkept)).1

theorem smallPool_room {entry : MempoolEntry} {n f : Nat} {m₁ : Mempool} (hroom : Mempool.makeRoom entry f (smallPool n) = (m₁, .ok ()))
    (id : Hash256) (e : MempoolEntry) : m₁.entries[id]? ≠ some e := by
  have hw := Mempool.makeRoom_within entry f (smallPool n)
  rw [hroom] at hw
  intro he
  have he : (∅ : Table Hash256 MempoolEntry)[id]? = some e := hw id e he
  rw [Table.get_empty] at he
  cases he

set_option maxRecDepth 10000 in
theorem parentTx_keepsLinks : (admitFunded parentTx).KeepsLinks Blake3.digest (smallPool 10) := by
  intro entry parents m₁ hadm hroom
  obtain ⟨htx, hid, -⟩ := hadm.entry_eq
  refine ⟨fun i hi hnone => ?_, fun c ec hc => absurd hc (smallPool_room hroom c ec), ?_⟩
  · rw [htx] at hi
    have hfunded : ∀ i ∈ parentTx.inputs, funding.entries[i.previousOutput]? ≠ none := by decide +kernel
    exact absurd hnone (hfunded i hi)
  · rintro p ep (hp | ⟨rfl, -⟩) ⟨i, hi, he, -⟩
    · exact absurd hp (smallPool_room hroom p ep)
    · rw [htx] at hi
      rw [hid] at he
      have hne : ∀ i ∈ parentTx.inputs, i.previousOutput.txid ≠ parentTx.txid Blake3.digest := by decide +kernel
      exact absurd he (hne i hi)

set_option maxRecDepth 10000 in
theorem childTx_keepsLinks : (admitFunded (childTx Blake3.digest)).KeepsLinks Blake3.digest (parentPool Blake3.digest) := by
  intro entry parents m₁ hadm hroom
  obtain rfl := childTx_room hadm hroom
  obtain ⟨htx, hid, -⟩ := hadm.entry_eq
  have hin : ∀ i ∈ (childTx Blake3.digest).inputs, i.previousOutput.txid = parentTx.txid Blake3.digest ∧
      funding.entries[i.previousOutput]? = none := by decide +kernel
  have hentry : (parentPool Blake3.digest).entries[parentTx.txid Blake3.digest]? =
      some (MempoolEntry.new Blake3.digest parentTx 1000 100) := by decide +kernel
  rw [← htx] at hin
  refine ⟨fun i hi _ => ?_, fun c ec hc => ?_, fun p ep hp ⟨i, hi, he, _⟩ => ⟨i, hi, he, (hin i hi).2⟩⟩
  · rw [(hin i hi).1]
    exact ⟨_, hentry⟩
  · obtain ⟨-, rfl⟩ := parentPool_entry hc
    rw [hid]
    rintro ⟨i, hi, he, -⟩
    have hne : ∀ i ∈ parentTx.inputs, i.previousOutput.txid ≠ (childTx Blake3.digest).txid Blake3.digest := by
      decide +kernel
    exact hne i hi he

set_option maxRecDepth 10000 in
theorem dependency_graph_family : (familyPool Blake3.digest 10).LinksExact ∧
    (familyPool Blake3.digest 10).Depends ((childTx Blake3.digest).txid Blake3.digest) (parentTx.txid Blake3.digest) := by
  have hexact := dependency_graph_exact (.step (.step (.empty 10 10000 0) _ parentTx_keepsLinks) _ childTx_keepsLinks)
  refine ⟨hexact, (hexact.up _ _).mp ⟨(∅ : TxidSet).insert (parentTx.txid Blake3.digest) (), ?_, by simp⟩⟩
  decide +kernel

/-- A block that confirms the parent. -/
def parentBlock : Block :=
  ⟨⟨1, Hash256.zero, Hash256.zero, Hash256.zero, 60, 0x207fffff, 0⟩, [Transaction.newCoinbase 1 [⟨1000, [0x51]⟩], parentTx]⟩

/-- The set after it. -/
def afterParent (H : Hasher) : UtxoSet := (UtxoSet.applyTransaction H funding parentTx 1).1

set_option maxRecDepth 10000 in
/-- The child stays linked to the confirmed parent: the maps are not exact, and the child, alone
    in the pool with its input unspent, is selected for no block. -/
theorem confirmed_parent_stays_linked :
    let pool := (familyPool Blake3.digest 10).step Blake3.digest (.connect parentBlock (afterParent Blake3.digest))
    PoolRun Blake3.digest (fun _ _ => True) pool ∧ ¬pool.LinksExact ∧
      pool.entries.size = 1 ∧ (pool.selectTransactionsForBlock 1000000).1 = [] := by
  intro pool
  refine ⟨.step (.step (.step (.empty 10 10000 0) _ trivial) _ trivial) _ trivial, fun h => ?_, by decide +kernel,
    by decide +kernel⟩
  have hrow : pool.childToParents[(childTx Blake3.digest).txid Blake3.digest]? =
      some ((∅ : TxidSet).insert (parentTx.txid Blake3.digest) ()) := by decide +kernel
  have hgone : pool.entries[parentTx.txid Blake3.digest]? = none := by decide +kernel
  obtain ⟨ec, ep, -, hp, -⟩ := (h.up _ (parentTx.txid Blake3.digest)).mp ⟨_, hrow, by simp⟩
  rw [hgone] at hp
  cases hp

end Scytale
