/-
  Scytale.Mempool.Packages — the limits on chains of pending transactions
  (crates/scytale-mempool/src/pool.rs).

  An admission counts the ancestors of the new entry along all the links above it. Of what it
  adds to, it looks at the parents alone, and counts their children; the ancestors farther up,
  and the descendants farther down, are not counted.
  - `Admits.ancestors_le`: the walk over the links finds every ancestor.
  - `limits_commit_iff`: a commit keeps the limits exactly when each ancestor of the new entry
    had room for one more descendant.
  - `package_limits`: so in every run whose admissions leave that room the limits hold.
  - `descendants_unbounded`: children of the children are not counted.
-/
import Scytale.Lib.Growth
import Scytale.Mempool.Cascade
import Scytale.Mempool.Readmission

namespace Scytale

open Lib

variable {H : Hasher} {m m' : Mempool} {entry : MempoolEntry}

namespace Mempool

/-- The transaction spends an output of the entry `p`. -/
def ParentOf (m : Mempool) (t : Transaction) (p : Hash256) : Prop :=
  ∃ ep, m.entries[p]? = some ep ∧ SpendsOutputOf t p ep.transaction

/-- The entries whose outputs the transaction spends, directly or through others. -/
def ancestorsOf (m : Mempool) (t : Transaction) : Set Hash256 := Growth.reach m.Depends (m.ParentOf t)

/-- The ancestors of an entry. -/
def ancestors (m : Mempool) (id : Hash256) : Set Hash256 := Growth.above m.Depends id

/-- The entries that spend an output of it, directly or through others. -/
def descendants (m : Mempool) (id : Hash256) : Set Hash256 := Growth.below m.Depends id

/-- No entry has more ancestors or descendants than allowed. -/
def PackageLimits (m : Mempool) : Prop := Growth.Bounded m.Depends maxAncestors maxDescendants

/-- The links have every dependency. -/
def DependsLinked (m : Mempool) : Prop := ∀ c p, m.Depends c p → m.Up c p

/-- The limits hold, and the links by which they are kept. -/
structure Packaged (m : Mempool) : Prop where
  limits : PackageLimits m
  linked : DependsLinked m

/-- In the pool the entry is committed to: none of the entries spends an output of it, and it
    spends no output of an entry, nor of its own, but by an input that is not unspent in the
    set. -/
structure CommitsLinked (utxos : UtxoSet) (m : Mempool) (entry : MempoolEntry) : Prop where
  childless : ∀ (c : Hash256) (ec : MempoolEntry), m.entries[c]? = some ec →
    ¬SpendsOutputOf ec.transaction entry.txid entry.transaction
  pending : ∀ (p : Hash256) (ep : MempoolEntry), m.entries[p]? = some ep ∨ (p = entry.txid ∧ ep = entry) →
    SpendsOutputOf entry.transaction p ep.transaction →
      ∃ i ∈ entry.transaction.inputs, i.previousOutput.txid = p ∧ utxos.entries[i.previousOutput]? = none

/-- And each of its ancestors has room for one more descendant. -/
structure CommitsWithin (utxos : UtxoSet) (m : Mempool) (entry : MempoolEntry) : Prop where
  linked : CommitsLinked utxos m entry
  room : ∀ a ∈ m.ancestorsOf entry.transaction, (m.descendants a).encard < maxDescendants

/-! ## What leaves -/

theorem packaged_withConfig (maxCount maxBytes : Nat) (minFeeRate : UInt64) :
    Packaged (withConfig maxCount maxBytes minFeeRate) := by
  have hexact := linksExact_withConfig maxCount maxBytes minFeeRate
  have hnone : ∀ c p, ¬(withConfig maxCount maxBytes minFeeRate).Depends c p := fun c p hd =>
    Table.not_linked_empty c p ((hexact.up c p).mpr hd)
  exact ⟨Growth.bounded_of_none hnone, fun c p hd => absurd hd (hnone c p)⟩

theorem Cut.packaged {gone forgotten : Hash256 → Prop} (hcut : Cut m m' gone forgotten) (h : Packaged m) : Packaged m' := by
  refine ⟨h.limits.mono fun c p hd => ((hcut.depends c p).mp hd).2.2, fun c p hd => ?_⟩
  obtain ⟨hc, -, hd⟩ := (hcut.depends c p).mp hd
  exact (hcut.up c p).mpr ⟨hc, h.linked c p hd⟩

/-! ## What comes -/

/-- A commit without children adds the entry with its dependencies. -/
theorem depends_grown {utxos : UtxoSet} (hfresh : m.entries[entry.txid]? = none) (hc : CommitsLinked utxos m entry)
    (hself : ¬SpendsOutputOf entry.transaction entry.txid entry.transaction) (parents : TxidSet) :
    Growth.Grown m.Depends (m.commitEntry entry parents).Depends entry.txid (m.ParentOf entry.transaction) := by
  have hget := get_commitEntry_of_fresh hfresh parents
  have habsent : ∀ e, m.entries[entry.txid]? ≠ some e := fun e he => by
    rw [hfresh] at he
    cases he
  constructor
  · intro a b
    constructor
    · rintro ⟨ea, eb, hea, heb, hs⟩
      rcases (hget a ea).mp hea with ⟨rfl, rfl⟩ | hold
      · rcases (hget b eb).mp heb with ⟨rfl, rfl⟩ | hold
        · exact absurd hs hself
        · exact .inr ⟨rfl, eb, hold, hs⟩
      · rcases (hget b eb).mp heb with ⟨rfl, rfl⟩ | hold'
        · exact absurd hs (hc.childless a ea hold)
        · exact .inl ⟨ea, eb, hold, hold', hs⟩
    · rintro (⟨ea, eb, hea, heb, hs⟩ | ⟨rfl, eb, heb, hs⟩)
      · exact ⟨ea, eb, (hget a ea).mpr (.inr hea), (hget b eb).mpr (.inr heb), hs⟩
      · exact ⟨entry, eb, (hget _ _).mpr (.inl ⟨rfl, rfl⟩), (hget b eb).mpr (.inr heb), hs⟩
  · rintro a ⟨-, eb, -, heb, -⟩
    exact habsent eb heb
  · rintro b ⟨ea, -, hea, -⟩
    exact habsent ea hea
  · rintro ⟨ep, hep, -⟩
    exact habsent ep hep

section
variable {tx : Transaction} {utxos : UtxoSet} {verifier : AuthorizationVerifier} {now : UInt64} {parents : TxidSet}
  {gone forgotten : Hash256 → Prop}

/-- A parent is found by the checks. -/
theorem Admits.parent_found (hadm : Admits H m tx utxos verifier now entry parents) {i : TxIn}
    (hi : i ∈ entry.transaction.inputs) (hnone : utxos.entries[i.previousOutput]? = none) :
    parents[i.previousOutput.txid]? = some () ∧ m.HasOutput i.previousOutput := by
  obtain ⟨es, hresolve, -⟩ := hadm.resolved
  obtain ⟨hparents, houtputs⟩ := resolveInputs_ok hresolve
  rw [hadm.entry_eq.1] at hi
  exact ⟨(hparents _).mpr (.inr ⟨i, hi, rfl, hnone⟩), houtputs i hi hnone⟩

theorem Admits.not_self (hadm : Admits H m tx utxos verifier now entry parents) (hc : CommitsLinked utxos m' entry) :
    ¬SpendsOutputOf entry.transaction entry.txid entry.transaction := by
  intro hs
  obtain ⟨i, hi, hid, hnone⟩ := hc.pending _ _ (.inr ⟨rfl, rfl⟩) hs
  obtain ⟨-, e, he, -⟩ := hadm.parent_found hi hnone
  rw [hid, hadm.entry_eq.2.1, hadm.fresh] at he
  cases he

/-- The ancestors in the pool where room was made are among those that were counted. -/
theorem Admits.ancestors_le (hadm : Admits H m tx utxos verifier now entry parents) (hcut : Cut m m' gone forgotten)
    (hlinked : DependsLinked m) (hc : CommitsLinked utxos m' entry) :
    (m'.ancestorsOf entry.transaction).encard ≤ maxAncestors := by
  obtain ⟨seen, -, hparents, hclosed, -, hcount⟩ := countAncestors_spec m.childToParents parents
  have hseen : ∀ a ∈ m'.ancestorsOf entry.transaction, a ∈ seen := by
    rintro a ⟨p, ⟨ep, hep, hs⟩, hpath⟩
    induction hpath with
    | refl =>
      obtain ⟨i, hi, rfl, hnone⟩ := hc.pending p ep (.inl hep) hs
      exact hparents _ (hadm.parent_found hi hnone).1
    | tail _ hd ih => exact hclosed _ ih _ (hlinked _ _ ((hcut.depends _ _).mp hd).2.2)
  have hlen : seen.length ≤ maxAncestors := hcount ▸ hadm.limits.ancestors
  exact (Growth.encard_le_length hseen).trans (Nat.cast_le.mpr hlen)

theorem Admits.fresh_in (hadm : Admits H m tx utxos verifier now entry parents) (hcut : Cut m m' gone forgotten) :
    m'.entries[entry.txid]? = none := hadm.fresh_of_within fun id e he => ((hcut.entries id e).mp he).2

/-- The new entry is within its limit, and counts for each of its ancestors. -/
theorem limits_commit_iff (hadm : Admits H m tx utxos verifier now entry parents) (hcut : Cut m m' gone forgotten)
    (hlinked : DependsLinked m) (hlimits : PackageLimits m') (hc : CommitsLinked utxos m' entry) :
    PackageLimits (m'.commitEntry entry parents) ↔
      ∀ a ∈ m'.ancestorsOf entry.transaction, (m'.descendants a).encard < maxDescendants := by
  have hgrown := depends_grown (hadm.fresh_in hcut) hc (hadm.not_self hc) parents
  exact (hgrown.bounded_iff hlimits).trans (and_iff_right (hadm.ancestors_le hcut hlinked hc))

theorem dependsLinked_commit (hadm : Admits H m tx utxos verifier now entry parents) (hcut : Cut m m' gone forgotten)
    (hlinked : DependsLinked m') (hc : CommitsLinked utxos m' entry) : DependsLinked (m'.commitEntry entry parents) := by
  have hgrown := depends_grown (hadm.fresh_in hcut) hc (hadm.not_self hc) parents
  intro c p hd
  rcases (hgrown.edge c p).mp hd with hd | ⟨rfl, ep, hep, hs⟩
  · apply commit_up_of
    refine .inl ⟨?_, hlinked c p hd⟩
    rintro rfl
    exact hgrown.noneFrom p hd
  · obtain ⟨i, hi, rfl, hnone⟩ := hc.pending p ep (.inl hep) hs
    exact commit_up_of (.inr ⟨rfl, (hadm.parent_found hi hnone).1⟩)

end

/-- An admission that commits leaves the room. -/
def AdmitsWithin (H : Hasher) (m : Mempool) (tx : Transaction) (utxos : UtxoSet) (verifier : AuthorizationVerifier)
    (now : UInt64) : Prop := ∀ entry parents m₁, Admits H m tx utxos verifier now entry parents →
  makeRoom entry (m.priorityIndex.size + 1) m = (m₁, .ok ()) → CommitsWithin utxos m₁ entry

/-- Each admission of a reorganisation does so where it is made. -/
def ReadmitsWithin (H : Hasher) (utxos : UtxoSet) (verifier : AuthorizationVerifier) (now : UInt64) :
    Mempool → List Transaction → Prop
  | _, [] => True
  | m, tx :: txs => (tx.isCoinbase = false → AdmitsWithin H m tx utxos verifier now) ∧
      ReadmitsWithin H utxos verifier now (m.takeBack H utxos verifier now tx) txs

theorem packaged_admission {tx : Transaction} {utxos : UtxoSet} {verifier : AuthorizationVerifier} {now : UInt64}
    (h : Packaged m) (hwithin : AdmitsWithin H m tx utxos verifier now) :
    Packaged (m.admitTransaction H tx utxos verifier now).1 := by
  refine admission_cut h (fun hr => hr.cut.packaged h) fun {entry parents m₁ gone} hadm hroom hr hk => ?_
  obtain ⟨hlimits, hlinked⟩ := hk
  obtain ⟨hc, hleft⟩ := hwithin entry parents m₁ hadm hroom
  exact ⟨(limits_commit_iff hadm hr.cut h.linked hlimits hc).mpr hleft, dependsLinked_commit hadm hr.cut hlinked hc⟩

theorem packaged_reorg {utxos : UtxoSet} {verifier : AuthorizationVerifier} {now : UInt64} {txs : List Transaction} :
    ∀ {m : Mempool}, Packaged m → ReadmitsWithin H utxos verifier now m txs →
      Packaged (txs.foldl (takeBack H utxos verifier now) m) := by
  induction txs with
  | nil => intro m h _; exact h
  | cons tx txs ih =>
    intro m h ⟨hwithin, hrest⟩
    rw [List.foldl_cons]
    refine ih ?_ hrest
    unfold takeBack
    split
    · exact h
    · rename_i hcb
      exact packaged_admission h (hwithin (by simpa using hcb))

end Mempool

/-- Whatever the step admits leaves the room. -/
def PoolOp.KeepsLimits (H : Hasher) (m : Mempool) : PoolOp → Prop
  | .admitTx tx utxos verifier now => m.AdmitsWithin H tx utxos verifier now
  | .remove _ => True
  | .connect _ _ => True
  | .reorg txs utxos verifier now => m.ReadmitsWithin H utxos verifier now txs

/-- In every run whose admissions leave room above what they admit, in every state: every entry
    has at most `maxAncestors` ancestors and `maxDescendants` descendants in the pool. -/
theorem package_limits (h : PoolRun H (PoolOp.KeepsLimits H) m) : ∀ (id : Hash256) (e : MempoolEntry),
    m.entries[id]? = some e → (m.ancestors id).encard ≤ maxAncestors ∧ (m.descendants id).encard ≤ maxDescendants := by
  have hpackaged : m.Packaged := h.keeps Mempool.packaged_withConfig fun m op hm hop => by
    cases op with
    | admitTx tx utxos verifier now => exact Mempool.packaged_admission hm hop
    | remove txid =>
      obtain ⟨gone, hr, -⟩ := Mempool.removal_cut m txid
      exact hr.cut.packaged hm
    | connect block utxos =>
      obtain ⟨gone, hr, -⟩ := Mempool.onBlockConnected_cut H m block utxos
      exact hr.cut.packaged ((Mempool.confirmAll_cut H m block).packaged hm)
    | reorg txs utxos verifier now =>
      rw [Mempool.step, Mempool.onReorg_fst]
      exact Mempool.packaged_reorg hm hop
  exact fun id e _ => ⟨hpackaged.limits.above id, hpackaged.limits.below id⟩

/-! ### A parent and its child -/

theorem parentPool_depends (c p : Hash256) : ¬(parentPool Blake3.digest).Depends c p := by
  rintro ⟨ec, ep, hc, hp, i, hi, hid, -⟩
  obtain ⟨-, rfl⟩ := parentPool_entry hc
  obtain ⟨rfl, -⟩ := parentPool_entry hp
  have hne : ∀ i ∈ parentTx.inputs, i.previousOutput.txid ≠ parentTx.txid Blake3.digest := by decide +kernel
  exact hne i hi hid

set_option maxRecDepth 10000 in
theorem package_limits_family : ∃ e, (familyPool Blake3.digest 10).entries[parentTx.txid Blake3.digest]? = some e ∧
    ((familyPool Blake3.digest 10).ancestors (parentTx.txid Blake3.digest)).encard ≤ maxAncestors ∧
      ((familyPool Blake3.digest 10).descendants (parentTx.txid Blake3.digest)).encard ≤ maxDescendants := by
  have hparent : (admitFunded parentTx).KeepsLimits Blake3.digest (smallPool 10) := by
    intro entry parents m₁ hadm hroom
    have hclean := parentTx_keepsLinks entry parents m₁ hadm hroom
    refine ⟨⟨hclean.childless, hclean.pending⟩, ?_⟩
    rintro a ⟨p, ⟨ep, hep, -⟩, -⟩
    exact absurd hep (smallPool_room hroom p ep)
  have hchild : (admitFunded (childTx Blake3.digest)).KeepsLimits Blake3.digest (parentPool Blake3.digest) := by
    intro entry parents m₁ hadm hroom
    have hclean := childTx_keepsLinks entry parents m₁ hadm hroom
    obtain rfl := childTx_room hadm hroom
    have hlimits : Growth.Bounded (parentPool Blake3.digest).Depends 0 0 := Growth.bounded_of_none parentPool_depends
    refine ⟨⟨hclean.childless, hclean.pending⟩, fun a _ => ?_⟩
    calc ((parentPool Blake3.digest).descendants a).encard ≤ (0 : ℕ) := hlimits.below a
      _ < maxDescendants := Nat.cast_lt.mpr (by decide)
  have hentry : (familyPool Blake3.digest 10).entries[parentTx.txid Blake3.digest]? =
      some (MempoolEntry.new Blake3.digest parentTx 1000 100) := by decide +kernel
  exact ⟨_, hentry, package_limits (.step (.step (.empty 10 10000 0) _ hparent) _ hchild) _ _ hentry⟩

/-! ### A tree of twenty-seven -/

def wealth : UtxoSet := ⟨(∅ : Table OutPoint UtxoEntry).insert ⟨Hash256.zero, 0⟩ ⟨⟨100000, [0x51]⟩, 0, false⟩⟩

/-- It pays twenty-five outputs. -/
def rootTx : Transaction :=
  ⟨transactionVersion1, [TxIn.new ⟨Hash256.zero, 0⟩ [0x51]], List.replicate maxDescendants ⟨3000, [0x51]⟩, 0⟩

/-- It spends one of them. -/
def branchTx (H : Hasher) (n : Nat) : Transaction := payOn ⟨rootTx.txid H, UInt32.ofNat n⟩ 2000

/-- It spends the output of the first of those. -/
def twigTx (H : Hasher) : Transaction := payOn ⟨(branchTx H 0).txid H, 0⟩ 1000

def admitWealthy (tx : Transaction) : PoolOp := .admitTx tx wealth (fun _ _ _ => .ok ()) 100

/-- The root and `n` branches. -/
def treePool (H : Hasher) : Nat → Mempool
  | 0 => (smallPool 100).step H (admitWealthy rootTx)
  | n + 1 => (treePool H n).step H (admitWealthy (branchTx H n))

/-- The root, all its branches, and the twig. -/
def fullTree (H : Hasher) : Mempool := (treePool H maxDescendants).step H (admitWealthy (twigTx H))

theorem treePool_run (H : Hasher) : ∀ n, PoolRun H (fun _ _ => True) (treePool H n)
  | 0 => .step (.empty 100 10000 0) _ trivial
  | n + 1 => .step (treePool_run H n) _ trivial

set_option maxRecDepth 100000 in
theorem fullTree_entries : (fullTree Blake3.digest).entries.size = 27 ∧
    (fullTree Blake3.digest).entries[rootTx.txid Blake3.digest]? = some (MempoolEntry.new Blake3.digest rootTx 25000 100) ∧
    (fullTree Blake3.digest).entries[(branchTx Blake3.digest 0).txid Blake3.digest]? =
      some (MempoolEntry.new Blake3.digest (branchTx Blake3.digest 0) 1000 100) ∧
    ∀ p ∈ (fullTree Blake3.digest).entries.toList, p.1 = rootTx.txid Blake3.digest ∨
      (∃ i ∈ p.2.transaction.inputs, i.previousOutput.txid = rootTx.txid Blake3.digest ∧
        i.previousOutput.index.toNat < rootTx.outputs.length) ∨
      ∃ i ∈ p.2.transaction.inputs, i.previousOutput.txid = (branchTx Blake3.digest 0).txid Blake3.digest ∧
        i.previousOutput.index.toNat < (branchTx Blake3.digest 0).outputs.length := by decide +kernel

/-- The twig is admitted, though the root has all the descendants it may have. -/
theorem descendants_unbounded : PoolRun Blake3.digest (fun _ _ => True) (fullTree Blake3.digest) ∧
    ∃ e, (fullTree Blake3.digest).entries[rootTx.txid Blake3.digest]? = some e ∧
      ¬((fullTree Blake3.digest).descendants (rootTx.txid Blake3.digest)).encard ≤ maxDescendants := by
  obtain ⟨hsize, hroot, hbranch, hall⟩ := fullTree_entries
  refine ⟨.step (treePool_run Blake3.digest maxDescendants) _ trivial, _, hroot, not_le.mpr ?_⟩
  have hids : ((fullTree Blake3.digest).ids.erase (rootTx.txid Blake3.digest)).Nodup := (Table.nodup_keys _).erase _
  have hlen : ((fullTree Blake3.digest).ids.erase (rootTx.txid Blake3.digest)).length = 26 := by
    rw [List.length_erase_of_mem (Mempool.mem_ids.mpr ⟨_, hroot⟩), Mempool.ids, List.length_map,
      Std.ExtTreeMap.length_toList, hsize]
  have hdepends : (fullTree Blake3.digest).Depends ((branchTx Blake3.digest 0).txid Blake3.digest) (rootTx.txid Blake3.digest) :=
    ⟨_, _, hbranch, hroot, _, List.mem_cons_self, rfl, by decide⟩
  have hbelow : ∀ id ∈ (fullTree Blake3.digest).ids.erase (rootTx.txid Blake3.digest),
      id ∈ (fullTree Blake3.digest).descendants (rootTx.txid Blake3.digest) := by
    intro id hid
    obtain ⟨hne, hid⟩ := (Table.nodup_keys _).mem_erase_iff.mp hid
    obtain ⟨e, he⟩ := Mempool.mem_ids.mp hid
    rcases hall (id, e) (Table.mem_toList.mpr he) with heq | hspends | hspends
    · exact absurd heq hne
    · exact .single ⟨e, _, he, hroot, hspends⟩
    · exact .tail (.single ⟨e, _, he, hbranch, hspends⟩) hdepends
  calc (maxDescendants : ℕ∞) < (26 : ℕ) := Nat.cast_lt.mpr (by decide)
    _ = ((fullTree Blake3.digest).ids.erase (rootTx.txid Blake3.digest)).length := by rw [hlen]
    _ ≤ _ := Growth.length_le_encard hids hbelow

end Scytale
