/-
  Scytale.Mempool.Closure — the inputs of the entries against the canonical set
  (crates/scytale-mempool/src/pool.rs).

  An input that is not unspent in the set is held by the link from its parent: a parent that
  leaves takes its children along. The link is made when the child is admitted, after room was
  made for it.
  - `InputsLinked`: every input is unspent, or an output of a linked parent.
  - `inputs_closed`: in every run whose admissions keep the parents of what they admit, and
    whose blocks take no outpoint from the set that is pending at once, every input is unspent
    or an output of another entry.
  - `parent_evicted_for_child`: an admission that evicts its own parent.
-/
import Scytale.Mempool.Dependencies

namespace Scytale

open Lib

/-- An admission against the current set, or a connected block with the set after it. -/
inductive CanonicalOp where
  | admitTx (tx : Transaction) (verifier : AuthorizationVerifier) (now : UInt64)
  | connect (block : Block) (updated : UtxoSet)

/-- A pool and the canonical set it is kept against. -/
structure PoolState where
  pool : Mempool
  utxos : UtxoSet

def PoolState.step (H : Hasher) (s : PoolState) : CanonicalOp → PoolState
  | .admitTx tx verifier now => ⟨(s.pool.admitTransaction H tx s.utxos verifier now).1, s.utxos⟩
  | .connect block updated => ⟨s.pool.onBlockConnected H block updated, updated⟩

/-- The states reached from an empty pool by operations that meet a condition. -/
inductive CanonicalRun (H : Hasher) (allowed : PoolState → CanonicalOp → Prop) : PoolState → Prop where
  | empty (maxCount maxBytes : Nat) (minFeeRate : UInt64) (utxos : UtxoSet) :
      CanonicalRun H allowed ⟨Mempool.withConfig maxCount maxBytes minFeeRate, utxos⟩
  | step {s : PoolState} (h : CanonicalRun H allowed s) (op : CanonicalOp) (hop : allowed s op) :
      CanonicalRun H allowed (s.step H op)

def UtxoSet.Has (utxos : UtxoSet) (o : OutPoint) : Prop := ∃ e, utxos.entries[o]? = some e

/-- Every input of every entry is unspent in the set or an output of another entry. -/
def InputsClosed (s : PoolState) : Prop := ∀ (id : Hash256) (e : MempoolEntry), s.pool.entries[id]? = some e →
  ∀ i ∈ e.transaction.inputs, s.utxos.Has i.previousOutput ∨
    (i.previousOutput.txid ≠ id ∧ s.pool.HasOutput i.previousOutput)

/-- And in the second case the other entry is linked to it. -/
def InputsLinked (m : Mempool) (utxos : UtxoSet) : Prop := ∀ (id : Hash256) (e : MempoolEntry), m.entries[id]? = some e →
  ∀ i ∈ e.transaction.inputs, utxos.Has i.previousOutput ∨
    (i.previousOutput.txid ≠ id ∧ m.HasOutput i.previousOutput ∧ m.Down i.previousOutput.txid id)

variable {H : Hasher} {m m' : Mempool} {utxos : UtxoSet}

theorem InputsLinked.closed {s : PoolState} (h : InputsLinked s.pool s.utxos) : InputsClosed s :=
  fun id e he i hi => (h id e he i hi).imp_right fun hr => ⟨hr.1, hr.2.1⟩

theorem UtxoSet.not_has_iff {o : OutPoint} : ¬utxos.Has o ↔ utxos.entries[o]? = none := by
  unfold Has
  cases utxos.entries[o]? with
  | none => simp
  | some e => simp

namespace Mempool

theorem Cut.hasOutput {gone forgotten : Hash256 → Prop} (h : Cut m m' gone forgotten) (o : OutPoint) :
    m'.HasOutput o ↔ ¬gone o.txid ∧ m.HasOutput o := by
  constructor
  · rintro ⟨e, he, hlt⟩
    obtain ⟨hg, he⟩ := (h.entries _ _).mp he
    exact ⟨hg, e, he, hlt⟩
  · rintro ⟨hg, e, he, hlt⟩
    exact ⟨e, (h.entries _ _).mpr ⟨hg, he⟩, hlt⟩

/-- A parent that left took its children along. -/
theorem Removed.inputsLinked {gone : Hash256 → Prop} (hr : Removed m m' gone) (h : InputsLinked m utxos) :
    InputsLinked m' utxos := by
  intro id e he i hi
  obtain ⟨hg, he⟩ := (hr.cut.entries id e).mp he
  refine (h id e he i hi).imp_right fun ⟨hne, hout, hdown⟩ => ?_
  have hp : ¬gone i.previousOutput.txid := fun hp => hg (hr.closed _ _ hp hdown)
  exact ⟨hne, (hr.cut.hasOutput _).mpr ⟨hp, hout⟩, (hr.cut.down _ _).mpr ⟨hp, hdown, fun hc => hg hc.1⟩⟩

theorem inputsLinked_withConfig (maxCount maxBytes : Nat) (minFeeRate : UInt64) (utxos : UtxoSet) :
    InputsLinked (withConfig maxCount maxBytes minFeeRate) utxos := by
  intro id e he
  have he : (∅ : Table Hash256 MempoolEntry)[id]? = some e := he
  rw [Table.get_empty] at he
  cases he

/-! ## Admissions -/

/-- The pool an admission commits to still has the parents. -/
def KeepsParents (H : Hasher) (m : Mempool) (tx : Transaction) (utxos : UtxoSet) (verifier : AuthorizationVerifier)
    (now : UInt64) : Prop := ∀ entry parents m₁, Admits H m tx utxos verifier now entry parents →
  makeRoom entry (m.priorityIndex.size + 1) m = (m₁, .ok ()) → ∀ i ∈ tx.inputs, utxos.entries[i.previousOutput]? = none →
    ∃ ep, m₁.entries[i.previousOutput.txid]? = some ep

theorem inputsLinked_commit {entry : MempoolEntry} {parents : TxidSet} (h : InputsLinked m utxos)
    (hfresh : m.entries[entry.txid]? = none)
    (hparents : ∀ i ∈ entry.transaction.inputs, utxos.entries[i.previousOutput]? = none →
      m.HasOutput i.previousOutput ∧ parents[i.previousOutput.txid]? = some ()) :
    InputsLinked (m.commitEntry entry parents) utxos := by
  have hkept : ∀ o, m.HasOutput o → o.txid ≠ entry.txid ∧ (m.commitEntry entry parents).HasOutput o := by
    rintro o ⟨e, he, hlt⟩
    have hne : o.txid ≠ entry.txid := fun heq => by
      rw [heq, hfresh] at he
      cases he
    exact ⟨hne, e, (get_commitEntry_of_fresh hfresh parents _ e).mpr (.inr he), hlt⟩
  intro id e he i hi
  rcases (get_commitEntry_of_fresh hfresh parents id e).mp he with ⟨rfl, rfl⟩ | he
  · by_cases hu : utxos.Has i.previousOutput
    · exact .inl hu
    · obtain ⟨hout, hp⟩ := hparents i hi (UtxoSet.not_has_iff.mp hu)
      obtain ⟨hne, hout⟩ := hkept _ hout
      exact .inr ⟨hne, hout, (commit_down _ _ _ _ _).mpr (.inr ⟨rfl, hp⟩)⟩
  · refine (h id e he i hi).imp_right fun ⟨hne, hout, hdown⟩ => ?_
    exact ⟨hne, (hkept _ hout).2, (commit_down _ _ _ _ _).mpr (.inl hdown)⟩

theorem inputsLinked_admission {tx : Transaction} {verifier : AuthorizationVerifier} {now : UInt64} (h : InputsLinked m utxos)
    (hkeeps : KeepsParents H m tx utxos verifier now) : InputsLinked (m.admitTransaction H tx utxos verifier now).1 utxos := by
  refine admission_cut (P := fun m => InputsLinked m utxos) h (fun hr => hr.inputsLinked h) ?_
  intro entry parents m₁ gone hadm hroom hr hroomed
  obtain ⟨htx, -⟩ := hadm.entry_eq
  obtain ⟨es, hresolve, -⟩ := hadm.resolved
  obtain ⟨hparents, houtputs⟩ := resolveInputs_ok hresolve
  refine inputsLinked_commit hroomed (hadm.fresh_after hr) ?_
  rw [htx]
  intro i hi hu
  refine ⟨?_, (hparents _).mpr (.inr ⟨i, hi, rfl, hu⟩)⟩
  obtain ⟨ep, hep⟩ := hkeeps entry parents m₁ hadm hroom i hi hu
  exact (hr.cut.hasOutput _).mpr ⟨((hr.cut.entries _ _).mp hep).1, houtputs i hi hu⟩

/-! ## Connected blocks -/

/-- The block takes no outpoint from the set that an entry it leaves in the pool spends and
    that is an output of an entry it leaves in the pool. -/
def SpendsNoPending (H : Hasher) (m : Mempool) (block : Block) (utxos updated : UtxoSet) : Prop :=
  ∀ (id : Hash256) (e : MempoolEntry), m.entries[id]? = some e → ¬Confirms H block id → ∀ i ∈ e.transaction.inputs,
    utxos.Has i.previousOutput → updated.entries[i.previousOutput]? = none →
      ¬(¬Confirms H block i.previousOutput.txid ∧ m.HasOutput i.previousOutput)

/-- An input the scan of a connected block finds whole. -/
theorem brokenInput_eq_false {i : TxIn} (h : m.brokenInput utxos i = false) :
    utxos.Has i.previousOutput ∨ m.HasOutput i.previousOutput := by
  unfold brokenInput at h
  rw [Bool.and_eq_false_iff] at h
  rcases h with h | h
  · exact .inl ((Table.contains_iff _ _).mp (by simpa using h))
  · refine .inr ?_
    unfold HasOutput
    cases hp : m.entries[i.previousOutput.txid]? with
    | none => simp [hp] at h
    | some p => exact ⟨p, rfl, by simpa [hp] using h⟩

theorem inputsLinked_connect {block : Block} {updated : UtxoSet} (h : InputsLinked m utxos)
    (hspends : SpendsNoPending H m block utxos updated) : InputsLinked (m.onBlockConnected H block updated) updated := by
  have hconf := confirmAll_cut H m block
  obtain ⟨gone, hr, hbroken⟩ := onBlockConnected_cut H m block updated
  intro id e he i hi
  obtain ⟨hg, he₁⟩ := (hr.cut.entries id e).mp he
  obtain ⟨hc, he⟩ := (hconf.entries id e).mp he₁
  by_cases hu : updated.Has i.previousOutput
  · exact .inl hu
  · -- the scan left the entry, so its parent is an entry
    have hout : (m.confirmAll H block).HasOutput i.previousOutput := by
      cases hb : (m.confirmAll H block).brokenInput updated i with
      | true => exact absurd (hbroken id ⟨e, he₁, List.any_eq_true.mpr ⟨i, hi, hb⟩⟩) hg
      | false => exact (brokenInput_eq_false hb).resolve_left hu
    rcases h id e he i hi with hhas | ⟨hne, -, hdown⟩
    · exact absurd ((hconf.hasOutput _).mp hout) (hspends id e he hc i hi hhas (UtxoSet.not_has_iff.mp hu))
    · have hdown₁ := (hconf.down i.previousOutput.txid id).mpr ⟨not_false, hdown, fun hcc => hc hcc.1⟩
      have hp : ¬gone i.previousOutput.txid := fun hp => hg (hr.closed _ _ hp hdown₁)
      exact .inr ⟨hne, (hr.cut.hasOutput _).mpr ⟨hp, hout⟩, (hr.cut.down _ _).mpr ⟨hp, hdown₁, fun hcc => hg hcc.1⟩⟩

end Mempool

/-- The step leaves no input without what it spends. -/
def CanonicalOp.KeepsInputs (H : Hasher) (s : PoolState) : CanonicalOp → Prop
  | .admitTx tx verifier now => s.pool.KeepsParents H tx s.utxos verifier now
  | .connect block updated => s.pool.SpendsNoPending H block s.utxos updated

/-- In every run whose steps keep the inputs, in every state: every input of every entry is
    unspent in the set or an output of another entry. -/
theorem inputs_closed {s : PoolState} (h : CanonicalRun H (CanonicalOp.KeepsInputs H) s) : InputsClosed s := by
  have hlinked : InputsLinked s.pool s.utxos := by
    induction h with
    | empty maxCount maxBytes minFeeRate utxos => exact Mempool.inputsLinked_withConfig maxCount maxBytes minFeeRate utxos
    | step _ op hop ih =>
      cases op with
      | admitTx tx verifier now => exact Mempool.inputsLinked_admission ih hop
      | connect block updated => exact Mempool.inputsLinked_connect ih hop
  exact hlinked.closed

/-! ### A parent and its child -/

/-- An admission by a verifier that accepts everything. -/
def admitNow (tx : Transaction) : CanonicalOp := .admitTx tx (fun _ _ _ => .ok ()) 100

set_option maxRecDepth 10000 in
/-- The parent, its child, and the block that confirms the parent. -/
theorem inputs_closed_family : InputsClosed ((((⟨smallPool 10, funding⟩ : PoolState).step Blake3.digest
    (admitNow parentTx)).step Blake3.digest (admitNow (childTx Blake3.digest))).step Blake3.digest
      (.connect parentBlock (afterParent Blake3.digest))) := by
  have hparent : (admitNow parentTx).KeepsInputs Blake3.digest ⟨smallPool 10, funding⟩ := by
    intro entry parents m₁ _ _ i hi hnone
    have hfunded : ∀ i ∈ parentTx.inputs, funding.entries[i.previousOutput]? ≠ none := by decide +kernel
    exact absurd hnone (hfunded i hi)
  have hchild : (admitNow (childTx Blake3.digest)).KeepsInputs Blake3.digest ⟨parentPool Blake3.digest, funding⟩ := by
    intro entry parents m₁ hadm hroom i hi _
    obtain rfl := childTx_room hadm hroom
    have hin : ∀ i ∈ (childTx Blake3.digest).inputs,
        (parentPool Blake3.digest).entries[i.previousOutput.txid]? =
          some (MempoolEntry.new Blake3.digest parentTx 1000 100) := by decide +kernel
    exact ⟨_, hin i hi⟩
  have hblock : (CanonicalOp.connect parentBlock (afterParent Blake3.digest)).KeepsInputs Blake3.digest
      ⟨familyPool Blake3.digest 10, funding⟩ := by
    intro id e he hc i hi hhas _
    -- the child's input is not in the set, and the parent is confirmed
    have hall : ∀ p ∈ (familyPool Blake3.digest 10).entries.toList, p.1 = parentTx.txid Blake3.digest ∨
        ∀ i ∈ p.2.transaction.inputs, funding.entries[i.previousOutput]? = none := by decide +kernel
    rcases hall (id, e) (Table.mem_toList.mpr he) with hid | hnone
    · exact absurd ⟨parentTx, List.mem_cons_self, hid.symm⟩ hc
    · exact absurd hhas (UtxoSet.not_has_iff.mpr (hnone i hi))
  exact inputs_closed (.step (.step (.step (.empty 10 10000 0 funding) _ hparent) _ hchild) _ hblock)

set_option maxRecDepth 10000 in
/-- A full pool of two: room for the child is made by evicting the entry with the lowest fee
    rate, its parent. -/
theorem parent_evicted_for_child :
    let s := (((⟨smallPool 2, funding⟩ : PoolState).step Blake3.digest (admitNow parentTx)).step Blake3.digest
      (admitNow otherTx)).step Blake3.digest (admitNow (childTx Blake3.digest))
    CanonicalRun Blake3.digest (fun _ _ => True) s ∧ ¬InputsClosed s := by
  intro s
  refine ⟨.step (.step (.step (.empty 2 10000 0 funding) _ trivial) _ trivial) _ trivial, fun h => ?_⟩
  have hentry : s.pool.entries[(childTx Blake3.digest).txid Blake3.digest]? =
      some (MempoolEntry.new Blake3.digest (childTx Blake3.digest) 4000 100) := by decide +kernel
  have hset : s.utxos.entries[(⟨parentTx.txid Blake3.digest, 0⟩ : OutPoint)]? = none := by decide +kernel
  have hgone : s.pool.entries[parentTx.txid Blake3.digest]? = none := by decide +kernel
  rcases h _ _ hentry ⟨⟨parentTx.txid Blake3.digest, 0⟩, [0x51], 0xffffffff⟩ (List.mem_cons_self) with hhas | ⟨-, e, he, -⟩
  · exact UtxoSet.not_has_iff.mpr hset hhas
  · have he : s.pool.entries[parentTx.txid Blake3.digest]? = some e := he
    rw [hgone] at he
    cases he

end Scytale
