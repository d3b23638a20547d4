/-
  Scytale.Mempool.Cascade — what an admission evicts
  (crates/scytale-mempool/src/pool.rs).

  The loop takes the lowest entry, which is lower than the new one, and with it all that is
  linked below, whatever its rate.
  - `LinksSpend`: in every run a recorded child is an entry that spends an output of its
    parent.
  - `evicted_below_cheaper`: every entry that goes is lower than the new one, or descends from
    one that goes with it and is.
-/
import Scytale.Mempool.Dependencies
import Scytale.Mempool.Eviction

namespace Scytale

open Lib

variable {H : Hasher} {m m' : Mempool} {entry : MempoolEntry}

namespace Mempool

/-- `c` is an entry that spends an output of the transaction `p`. -/
def SpendsFrom (m : Mempool) (p c : Hash256) : Prop :=
  ∃ e, m.entries[c]? = some e ∧ ∃ i ∈ e.transaction.inputs, i.previousOutput.txid = p

/-- What `parent_to_children` has of a child is true, and `child_to_parents` has it too. -/
structure LinksSpend (m : Mempool) : Prop where
  up : ∀ p c, m.Down p c → m.Up c p
  spends : ∀ p c, m.Down p c → m.SpendsFrom p c

theorem linksSpend_withConfig (maxCount maxBytes : Nat) (minFeeRate : UInt64) :
    LinksSpend (withConfig maxCount maxBytes minFeeRate) :=
  ⟨fun p c h => absurd h (Table.not_linked_empty p c), fun p c h => absurd h (Table.not_linked_empty p c)⟩

/-- A child that leaves leaves the rows of its parents. -/
theorem Cut.linksSpend {gone forgotten : Hash256 → Prop} (hcut : Cut m m' gone forgotten) (h : LinksSpend m) :
    LinksSpend m' := by
  have hstays : ∀ p c, m'.Down p c → m.Down p c ∧ ¬gone c := by
    intro p c hdown
    obtain ⟨-, hdown, hkept⟩ := (hcut.down p c).mp hdown
    exact ⟨hdown, fun hgone => hkept ⟨hgone, h.up p c hdown⟩⟩
  constructor
  · intro p c hdown
    obtain ⟨hdown, hgone⟩ := hstays p c hdown
    exact (hcut.up c p).mpr ⟨hgone, h.up p c hdown⟩
  · intro p c hdown
    obtain ⟨hdown, hgone⟩ := hstays p c hdown
    obtain ⟨e, he, hspends⟩ := h.spends p c hdown
    exact ⟨e, (hcut.entries c e).mpr ⟨hgone, he⟩, hspends⟩

/-- A row that is there stays, and the entry gets its own. -/
theorem commit_up_of {parents : TxidSet} {c p : Hash256}
    (h : (c ≠ entry.txid ∧ m.Up c p) ∨ (c = entry.txid ∧ parents[p]? = some ())) :
    (m.commitEntry entry parents).Up c p := by
  unfold Up commitEntry
  simp only
  split
  · rename_i hempty
    rcases h with ⟨-, h⟩ | ⟨-, h⟩
    · exact h
    · rw [Std.ExtTreeMap.isEmpty_iff.mp hempty, Table.get_empty] at h
      cases h
  · exact (Table.linked_insert _ _ _ _ _).mpr (h.symm.imp (fun h => h) fun h => h)

theorem LinksSpend.commit {parents : TxidSet} (h : LinksSpend m) (hfresh : m.entries[entry.txid]? = none)
    (hparents : ∀ p, parents[p]? = some () → ∃ i ∈ entry.transaction.inputs, i.previousOutput.txid = p) :
    LinksSpend (m.commitEntry entry parents) := by
  have hold : ∀ p c, m.Down p c → c ≠ entry.txid := by
    rintro p c hdown rfl
    obtain ⟨e, he, -⟩ := h.spends p _ hdown
    rw [hfresh] at he
    cases he
  have hget := get_commitEntry_of_fresh hfresh parents
  constructor
  · intro p c hdown
    rcases (commit_down m entry parents p c).mp hdown with hdown | hnew
    · exact commit_up_of (.inl ⟨hold p c hdown, h.up p c hdown⟩)
    · exact commit_up_of (.inr hnew)
  · intro p c hdown
    rcases (commit_down m entry parents p c).mp hdown with hdown | ⟨rfl, hp⟩
    · obtain ⟨e, he, hspends⟩ := h.spends p c hdown
      exact ⟨e, (hget c e).mpr (.inr he), hspends⟩
    · exact ⟨entry, (hget _ _).mpr (.inl ⟨rfl, rfl⟩), hparents p hp⟩

section
variable {tx : Transaction} {utxos : UtxoSet} {verifier : AuthorizationVerifier} {now : UInt64} {parents : TxidSet}

/-- The parents are named by inputs. -/
theorem Admits.parents_spent (h : Admits H m tx utxos verifier now entry parents) (p : Hash256)
    (hp : parents[p]? = some ()) : ∃ i ∈ entry.transaction.inputs, i.previousOutput.txid = p := by
  obtain ⟨es, hresolve, -⟩ := h.resolved
  rcases ((resolveInputs_ok hresolve).1 p).mp hp with hp | ⟨i, hi, hid, -⟩
  · rw [Table.get_empty] at hp
    cases hp
  · rw [h.entry_eq.1]
    exact ⟨i, hi, hid⟩

theorem linksSpend_admission (tx : Transaction) (utxos : UtxoSet) (verifier : AuthorizationVerifier) (now : UInt64)
    (h : LinksSpend m) : LinksSpend (m.admitTransaction H tx utxos verifier now).1 :=
  admission_cut h (fun hr => hr.cut.linksSpend h) fun hadm _ hr hk => hk.commit (hadm.fresh_after hr) hadm.parents_spent

end

end Mempool

theorem PoolRun.linksSpend {allowed : Mempool → PoolOp → Prop} (h : PoolRun H allowed m) : m.LinksSpend :=
  h.keeps Mempool.linksSpend_withConfig fun m op hm _ => by
    cases op with
    | admitTx tx utxos verifier now => exact Mempool.linksSpend_admission tx utxos verifier now hm
    | remove txid =>
      obtain ⟨gone, hr, -⟩ := Mempool.removal_cut m txid
      exact hr.cut.linksSpend hm
    | connect block utxos =>
      obtain ⟨gone, hr, -⟩ := Mempool.onBlockConnected_cut H m block utxos
      exact hr.cut.linksSpend ((Mempool.confirmAll_cut H m block).linksSpend hm)
    | reorg txs utxos verifier now =>
      rw [Mempool.step, Mempool.onReorg_fst]
      refine List.foldlRecOn txs _ hm fun m h tx _ => ?_
      unfold Mempool.takeBack
      split
      · exact h
      · exact Mempool.linksSpend_admission tx utxos verifier now h

namespace Mempool

/-! ## Evictions -/

/-- It goes, and is lower than the entry to be admitted. -/
def TakenForRate (m m' : Mempool) (rate : UInt64) (root : Hash256) : Prop :=
  ∃ r, m.entries[root]? = some r ∧ m'.entries[root]? = none ∧ r.feeRate < rate

/-- All that the evictions take is linked below an entry they take for its rate. -/
theorem Evictions.taken (h : Evictions entry m m') (hm : IndexedPool H m) : ∃ gone, Removed m m' gone ∧
    ∀ id, gone id → ∃ root, m.TakenForRate m' entry.feeRate root ∧ Relation.ReflTransGen m.Down root id := by
  induction h with
  | none => exact ⟨_, Removed.refl m, fun _ h => h.elim⟩
  | evict h hlowest hrate ih =>
    rename_i m' lowest
    obtain ⟨gone, hr, hroots⟩ := ih
    obtain ⟨gone', hr', hself, hleast⟩ := removal_cut m' lowest.txid
    obtain ⟨e, he, rfl⟩ := lowest_entry (h.indexed hm) hlowest
    have hboth := hr.trans hr'
    have habsent : ∀ id, gone id ∨ gone' id →
        (m'.removeTransactionAndDescendants e.priorityKey.txid).1.entries[id]? = Option.none := fun id hid =>
      Option.eq_none_iff_forall_not_mem.mpr fun e' he' => ((hboth.cut.entries id e').mp he').1 hid
    refine ⟨_, hboth, fun id hid => ?_⟩
    rcases hid with hid | hid
    · obtain ⟨root, ⟨r, hroot, hnone, hlow⟩, hpath⟩ := hroots id hid
      refine ⟨root, ⟨r, hroot, ?_, hlow⟩, hpath⟩
      refine Option.eq_none_iff_forall_not_mem.mpr fun e' he' => ?_
      rw [((hr'.cut.entries root e').mp he').2] at hnone
      cases hnone
    · have hroot : m.TakenForRate (m'.removeTransactionAndDescendants e.priorityKey.txid).1 entry.feeRate
          e.priorityKey.txid := ⟨e, h.within _ e he, habsent _ (.inr hself), hrate⟩
      refine ⟨_, hroot, hleast (fun id => Relation.ReflTransGen m.Down e.priorityKey.txid id) .refl ?_ id hid⟩
      -- a link the earlier evictions left was there before
      exact fun p c hp hc => hp.tail ((hr.cut.down p c).mp hc).2.1

end Mempool

/-- In every run, whatever is done in it, every entry that a successful admission removes has
    a lower fee rate than the admitted transaction or spends, through a chain of entries, an
    output of one that is removed with it and has. -/
theorem evicted_below_cheaper {allowed : Mempool → PoolOp → Prop} (h : PoolRun H allowed m) {tx : Transaction} {utxos : UtxoSet}
    {verifier : AuthorizationVerifier} {now : UInt64} {txid : Hash256}
    (hok : m.admitTransaction H tx utxos verifier now = (m', .ok txid)) :
    ∃ entry, m'.entries[txid]? = some entry ∧ entry.transaction = tx ∧
      ∀ (id : Hash256) (e : MempoolEntry), m.entries[id]? = some e → m'.entries[id]? = none →
        ∃ root, m.TakenForRate m' entry.feeRate root ∧ Relation.ReflTransGen m.SpendsFrom root id := by
  rcases Mempool.admit_cases H m tx utxos verifier now with ⟨e, hres⟩ | ⟨entry, parents, hadm, ⟨m₁, e, -, hres⟩ | ⟨m₁, hroom, hres⟩⟩
  · rw [hres] at hok
    cases hok
  · rw [hres] at hok
    cases hok
  · rw [hres] at hok
    cases hok
    obtain ⟨m₂, res, heq, hev, -⟩ := Mempool.makeRoom_spec h.indexed entry
    obtain ⟨rfl, rfl⟩ := Prod.mk.inj (heq.symm.trans hroom)
    obtain ⟨gone, hr, hroots⟩ := hev.taken h.indexed
    have hget := Mempool.get_commitEntry_of_fresh (hadm.fresh_of_within hev.within) parents
    have hnone : ∀ {id : Hash256}, id ≠ entry.txid → ((m₂.commitEntry entry parents).entries[id]? = none ↔
        m₂.entries[id]? = none) := by
      intro id hne
      simp only [Option.eq_none_iff_forall_ne_some, ne_eq, hget, hne, false_and, false_or]
    have hne : ∀ {id : Hash256} {e : MempoolEntry}, m.entries[id]? = some e → id ≠ entry.txid := by
      rintro id e he rfl
      rw [hadm.entry_eq.2.1, hadm.fresh] at he
      cases he
    refine ⟨entry, (hget _ _).mpr (.inl ⟨rfl, rfl⟩), hadm.entry_eq.1, fun id e he hgone => ?_⟩
    have hid : gone id := by
      by_contra hstays
      have := (hr.cut.entries id e).mpr ⟨hstays, he⟩
      rw [(hnone (hne he)).mp hgone] at this
      cases this
    obtain ⟨root, ⟨r, hroot, hout, hrate⟩, hpath⟩ := hroots id hid
    refine ⟨root, ⟨r, hroot, (hnone (hne hroot)).mpr hout, hrate⟩, ?_⟩
    exact Relation.ReflTransGen.mono h.linksSpend.spends root id hpath

/-! ### A child that pays more -/

/-- For a fee of 2000, in a full pool of a parent with 1000 and its child with 4000. -/
def admitOther (H : Hasher) : Mempool × Except MempoolError Hash256 :=
  (familyPool H 2).admitTransaction H otherTx funding (fun _ _ _ => .ok ()) 100

theorem familyPool_run (H : Hasher) (n : Nat) : PoolRun H (fun _ _ => True) (familyPool H n) :=
  .step (.step (.empty n 10000 0) (admitFunded parentTx) trivial) (admitFunded (childTx H)) trivial

set_option maxRecDepth 10000 in
theorem admitOther_ok : admitOther Blake3.digest = ((admitOther Blake3.digest).1, .ok (otherTx.txid Blake3.digest)) :=
  Prod.ext rfl (by decide +kernel)

theorem evicted_below_cheaper_family : ∃ entry : MempoolEntry,
    (admitOther Blake3.digest).1.entries[otherTx.txid Blake3.digest]? = some entry ∧ entry.transaction = otherTx ∧
      ∀ (id : Hash256) (e : MempoolEntry), (familyPool Blake3.digest 2).entries[id]? = some e →
        (admitOther Blake3.digest).1.entries[id]? = none →
          ∃ root, (familyPool Blake3.digest 2).TakenForRate (admitOther Blake3.digest).1 entry.feeRate root ∧
            Relation.ReflTransGen (familyPool Blake3.digest 2).SpendsFrom root id :=
  evicted_below_cheaper (familyPool_run Blake3.digest 2) admitOther_ok

set_option maxRecDepth 10000 in
/-- Both go. -/
theorem child_evicted_with_parent : PoolRun Blake3.digest (fun _ _ => True) (familyPool Blake3.digest 2) ∧
    (admitOther Blake3.digest).2 = .ok (otherTx.txid Blake3.digest) ∧ ∃ e entry : MempoolEntry,
      (admitOther Blake3.digest).1.entries[otherTx.txid Blake3.digest]? = some entry ∧
      (familyPool Blake3.digest 2).entries[(childTx Blake3.digest).txid Blake3.digest]? = some e ∧
      (admitOther Blake3.digest).1.entries[(childTx Blake3.digest).txid Blake3.digest]? = none ∧
      ¬e.feeRate < entry.feeRate := by
  refine ⟨familyPool_run Blake3.digest 2, by decide +kernel, MempoolEntry.new Blake3.digest (childTx Blake3.digest) 4000 100,
    MempoolEntry.new Blake3.digest otherTx 2000 100, ?_⟩
  decide +kernel

end Scytale
