/-
  Scytale.Indexer.Mirror — the outputs table against the unspent outputs.

  `Shows` compares the two at one outpoint: an unspent output has its row, and a row that is
  not marked spent is of an unspent output or has no value. Whatever a block spends or creates
  is shown after it is indexed, shown before or not; the rest stays as it was (`Carries`).
  - `carries_block` / `carries_replay`: one block, and blocks replayed one after the other.
  - `getAddressBalance_shown`: where every outpoint is shown, the balance of each address is
    the sum of its unspent outputs.
-/
import Scytale.Indexer.Store
import Scytale.Consensus.Naming
import Scytale.Core.Supply

namespace Scytale

open Lib IndexerStore

section
variable (H : Hasher)

/-- The row of an unspent output. -/
def unspentRow (e : UtxoEntry) : AddressUtxoRow := ⟨indexerAddress H e.output.lockingCondition, e.output.value, none, false⟩

structure Shows (rows : Table OutPoint AddressUtxoRow) (u : UtxoSet) (o : OutPoint) : Prop where
  row : ∀ e, u.entries[o]? = some e → rows[o]? = some (unspentRow H e)
  unspent : ∀ row, rows[o]? = some row → row.isSpent = false → (∃ e, u.entries[o]? = some e) ∨ row.valueQuanta = 0

/-- What a transaction lists: data carriers too. -/
def Transaction.lists (t : Transaction) : List OutPoint :=
  (List.range t.outputs.length).map fun i => ⟨t.txid H, UInt32.ofNat i⟩

def touched (txs : List Transaction) : List OutPoint := txs.flatMap fun t => t.spends ++ t.lists H

/-- A data carrier has no value, and its outpoint is neither unspent nor created by the block:
    the last only says that no digests collide. -/
def CarriersIdle (s : UtxoSet) (txs : List Transaction) : Prop :=
  ∀ t ∈ txs, ∀ i out, t.outputs[i]? = some out → out.isOpReturn = true →
    out.value = 0 ∧ s.entries[(⟨t.txid H, UInt32.ofNat i⟩ : OutPoint)]? = none ∧
      ∀ t' ∈ txs, (⟨t.txid H, UInt32.ofNat i⟩ : OutPoint) ∉ t'.outpoints H

/-- Between two pairs of rows and unspent outputs: what is touched is shown, what was shown
    still is. -/
def Carries (rows rows' : Table OutPoint AddressUtxoRow) (u u' : UtxoSet) (os : List OutPoint) : Prop :=
  ∀ o, (o ∈ os → Shows H rows' u' o) ∧ (o ∉ os → Shows H rows u o → Shows H rows' u' o)

end

variable {H : Hasher} {rows rows' rows'' : Table OutPoint AddressUtxoRow} {u u' u'' : UtxoSet}

/-! ## Transactions -/

theorem Shows.congr {o : OutPoint} (h : Shows H rows u o) (hr : rows'[o]? = rows[o]?) (hu : u'.entries[o]? = u.entries[o]?) :
    Shows H rows' u' o := ⟨fun e he => hr ▸ h.row e (hu ▸ he), fun row hrow => hu ▸ h.unspent row (hr ▸ hrow)⟩

theorem Carries.refl (rows : Table OutPoint AddressUtxoRow) (u : UtxoSet) : Carries H rows rows u u [] :=
  fun _ => ⟨fun h => absurd h List.not_mem_nil, fun _ h => h⟩

theorem Carries.trans {os os' : List OutPoint} (h : Carries H rows rows' u u' os) (h' : Carries H rows' rows'' u' u'' os') :
    Carries H rows rows'' u u'' (os ++ os') := by
  intro o
  by_cases ho' : o ∈ os'
  · exact ⟨fun _ => (h' o).1 ho', fun hn => absurd (List.mem_append_right _ ho') hn⟩
  · constructor
    · intro ho
      rcases List.mem_append.mp ho with ho | ho
      · exact (h' o).2 ho' ((h o).1 ho)
      · exact absurd ho ho'
    · intro hn hs
      exact (h' o).2 ho' ((h o).2 (fun ho => hn (List.mem_append_left _ ho)) hs)

/-- What a transaction adds is each of its outputs that carries no data, under its index. -/
theorem mem_createdFrom {txid : Hash256} {height : UInt64} {cb : Bool} {p : OutPoint × UtxoEntry} (os : List TxOut) :
    ∀ {idx : Nat}, p ∈ UtxoSet.createdFrom txid height cb idx os ↔ ∃ i out, os[i]? = some out ∧ out.isOpReturn = false ∧
      p = (⟨txid, UInt32.ofNat (idx + i)⟩, ⟨out, height, cb⟩) := by
  induction os with
  | nil => intro idx; simp [UtxoSet.createdFrom]
  | cons o os ih =>
    intro idx
    have hrest : p ∈ UtxoSet.createdFrom txid height cb (idx + 1) os ↔ ∃ i out, (o :: os)[i + 1]? = some out ∧
        out.isOpReturn = false ∧ p = (⟨txid, UInt32.ofNat (idx + (i + 1))⟩, ⟨out, height, cb⟩) := by
      rw [ih]
      simp only [List.getElem?_cons_succ, Nat.add_assoc, Nat.add_comm 1]
    simp only [UtxoSet.createdFrom]
    by_cases hop : o.isOpReturn = true
    · rw [if_pos hop, hrest]
      constructor
      · rintro ⟨i, h⟩
        exact ⟨i + 1, h⟩
      · rintro ⟨i, out, hout, hno, hp⟩
        cases i with
        | zero =>
          rw [List.getElem?_cons_zero] at hout
          cases hout
          rw [hop] at hno
          cases hno
        | succ i => exact ⟨i, out, hout, hno, hp⟩
    · rw [if_neg hop, List.mem_cons, hrest]
      constructor
      · rintro (rfl | ⟨i, h⟩)
        · exact ⟨0, o, rfl, by simpa using hop, rfl⟩
        · exact ⟨i + 1, h⟩
      · rintro ⟨i, out, hout, hno, hp⟩
        cases i with
        | zero =>
          rw [List.getElem?_cons_zero] at hout
          cases hout
          exact .inl hp
        | succ i => exact .inr ⟨i, out, hout, hno, hp⟩

theorem mem_outputRows {t : Transaction} {p : OutPoint × AddressUtxoRow} :
    p ∈ (extractTxPayload H t).outputs.map (outputRow (t.txid H)) ↔ ∃ i out, t.outputs[i]? = some out ∧
      p = (⟨t.txid H, UInt32.ofNat i⟩, ⟨indexerAddress H out.lockingCondition, out.value, none, false⟩) := by
  simp only [extractTxPayload, List.mem_map, List.mem_mapIdx, indexerOutput, outputRow]
  constructor
  · rintro ⟨_, ⟨i, hi, rfl⟩, rfl⟩
    exact ⟨i, t.outputs[i], List.getElem?_eq_getElem hi, rfl⟩
  · rintro ⟨i, out, hout, rfl⟩
    obtain ⟨hi, rfl⟩ := List.getElem?_eq_some_iff.mp hout
    exact ⟨_, ⟨i, hi, rfl⟩, rfl⟩

theorem keys_outputRows (t : Transaction) (o : OutPoint) :
    o ∈ ((extractTxPayload H t).outputs.map (outputRow (t.txid H))).map (·.1) ↔ o ∈ t.lists H := by
  simp only [List.mem_map (f := Prod.fst), Transaction.lists, List.mem_map (f := fun i => (⟨t.txid H, UInt32.ofNat i⟩ : OutPoint)),
    List.mem_range, mem_outputRows]
  constructor
  · rintro ⟨_, ⟨i, out, hout, rfl⟩, rfl⟩
    exact ⟨i, (List.getElem?_eq_some_iff.mp hout).1, rfl⟩
  · rintro ⟨i, hi, rfl⟩
    exact ⟨_, ⟨i, t.outputs[i], List.getElem?_eq_getElem hi, rfl⟩, rfl⟩

theorem outpoints_lists {t : Transaction} {o : OutPoint} (h : o ∈ t.outpoints H) : o ∈ t.lists H := by
  obtain ⟨p, hp, rfl⟩ := List.mem_map.mp h
  obtain ⟨i, out, hout, -, rfl⟩ := (mem_createdFrom _).mp hp
  rw [Nat.zero_add]
  exact List.mem_map.mpr ⟨i, List.mem_range.mpr (List.getElem?_eq_some_iff.mp hout).1, rfl⟩

/-- The outputs of a transaction go in where its inputs went out. -/
theorem carries_outputs (rows : Table OutPoint AddressUtxoRow) (u : UtxoSet) {t : Transaction} {u₀ : UtxoSet} {height : UInt64} {cb : Bool}
    (h₀ : ∀ o, u₀.entries[o]? = if o ∈ t.spends then none else u.entries[o]?)
    (hins : UtxoSet.insertAll u₀ (UtxoSet.created H height cb t) = (u', .ok ()))
    (hidle : ∀ i out, t.outputs[i]? = some out → out.isOpReturn = true →
      out.value = 0 ∧ u'.entries[(⟨t.txid H, UInt32.ofNat i⟩ : OutPoint)]? = none) :
    Carries H rows (writtenRows rows (extractTxPayload H t)) u u' (t.spends ++ t.lists H) := by
  obtain ⟨-, -, hin, hout⟩ := UtxoSet.insertAll_ok hins
  intro o
  -- the row under a listed outpoint is of one of its outputs
  have hlisted : o ∈ t.lists H → Shows H (writtenRows rows (extractTxPayload H t)) u' o := by
    intro ho
    rcases Table.get_insertAll ((extractTxPayload H t).outputs.map (outputRow (t.txid H)))
      ((extractTxPayload H t).inputs.foldl markSpent rows) o with ⟨row, hrow, hget⟩ | ⟨hn, -⟩
    · obtain ⟨i, out, hi, he⟩ := mem_outputRows.mp hrow
      obtain ⟨rfl, rfl⟩ := Prod.mk.inj he
      by_cases hop : out.isOpReturn = true
      · obtain ⟨hzero, hnone⟩ := hidle i out hi hop
        refine ⟨fun e he => absurd he (by rw [hnone]; simp), fun row hrow _ => .inr ?_⟩
        rw [writtenRows, extractTxPayload] at hrow
        rw [extractTxPayload] at hget
        rw [hget] at hrow
        cases hrow
        exact hzero
      · have hmem : ((⟨t.txid H, UInt32.ofNat i⟩ : OutPoint), (⟨out, height, cb⟩ : UtxoEntry)) ∈ UtxoSet.created H height cb t :=
          (mem_createdFrom _).mpr ⟨i, out, hi, by simpa using hop, by rw [Nat.zero_add]⟩
        have hu' := hin _ hmem
        refine ⟨fun e he => ?_, fun row _ _ => .inl ⟨_, hu'⟩⟩
        rw [hu'] at he
        cases he
        exact hget
    · exact absurd ((keys_outputRows t o).mpr ho) hn
  -- elsewhere both sides are what spending left
  have hother : o ∉ t.lists H → (writtenRows rows (extractTxPayload H t))[o]? =
      (t.spends.foldl markSpent rows)[o]? ∧ u'.entries[o]? = u₀.entries[o]? := by
    intro ho
    constructor
    · rcases Table.get_insertAll ((extractTxPayload H t).outputs.map (outputRow (t.txid H)))
        ((extractTxPayload H t).inputs.foldl markSpent rows) o with ⟨row, hrow, -⟩ | ⟨-, hget⟩
      · exact absurd ((keys_outputRows t o).mp (List.mem_map.mpr ⟨_, hrow, rfl⟩)) ho
      · exact hget
    · refine hout o fun hc => ho (outpoints_lists ?_)
      rwa [UtxoSet.created_keys] at hc
  by_cases hl : o ∈ t.lists H
  · exact ⟨fun _ => hlisted hl, fun hn => absurd (List.mem_append_right _ hl) hn⟩
  · obtain ⟨hrow, hset⟩ := hother hl
    rw [get_markSpents] at hrow
    rw [h₀] at hset
    by_cases hs : o ∈ t.spends
    · rw [if_pos hs] at hrow hset
      refine ⟨fun _ => ⟨fun e he => ?_, fun row h hsp => ?_⟩, fun hn => absurd (List.mem_append_left _ hs) hn⟩
      · rw [hset] at he
        cases he
      · rw [hrow] at h
        obtain ⟨old, -, rfl⟩ := Option.map_eq_some_iff.mp h
        cases hsp
    · rw [if_neg hs] at hrow hset
      refine ⟨fun ho => ?_, fun _ h => h.congr hrow hset⟩
      rcases List.mem_append.mp ho with ho | ho
      · exact absurd ho hs
      · exact absurd ho hl

/-- An outpoint that was not unspent and is not created stays so. -/
theorem insertAll_absent {u₀ : UtxoSet} {t : Transaction} {height : UInt64} {cb : Bool} {o : OutPoint}
    (hins : UtxoSet.insertAll u₀ (UtxoSet.created H height cb t) = (u', .ok ())) (h₀ : u₀.entries[o]? = none)
    (ho : o ∉ t.outpoints H) : u'.entries[o]? = none := by
  rw [(UtxoSet.insertAll_ok hins).2.2.2 o (by rwa [UtxoSet.created_keys]), h₀]

/-! ## Blocks -/

theorem CarriersIdle.tail {t : Transaction} {txs : List Transaction} (h : CarriersIdle H u (t :: txs))
    (hu : ∀ o, u.entries[o]? = none → o ∉ t.outpoints H → u'.entries[o]? = none) : CarriersIdle H u' txs := by
  intro t' ht' i out hout hop
  obtain ⟨hzero, hnone, hno⟩ := h t' (List.mem_cons_of_mem _ ht') i out hout hop
  exact ⟨hzero, hu _ hnone (hno t List.mem_cons_self), fun t'' ht'' => hno t'' (List.mem_cons_of_mem _ ht'')⟩

theorem CarriersIdle.head {t : Transaction} {txs : List Transaction} (h : CarriersIdle H u (t :: txs))
    (hu : ∀ o, u.entries[o]? = none → o ∉ t.outpoints H → u'.entries[o]? = none) : ∀ i out, t.outputs[i]? = some out →
      out.isOpReturn = true → out.value = 0 ∧ u'.entries[(⟨t.txid H, UInt32.ofNat i⟩ : OutPoint)]? = none := by
  intro i out hout hop
  obtain ⟨hzero, hnone, hno⟩ := h t List.mem_cons_self i out hout hop
  exact ⟨hzero, hu _ hnone (hno t List.mem_cons_self)⟩

theorem carries_rest {height : UInt64} {txs : List Transaction} : ∀ {u u' : UtxoSet} {fees fees' : UInt64}
    {rows : Table OutPoint AddressUtxoRow}, UtxoSet.applyRest H height u fees txs = .ok (u', fees') →
      CarriersIdle H u txs →
        Carries H rows ((txs.map (extractTxPayload H)).foldl writtenRows rows) u u' (touched H txs) := by
  induction txs with
  | nil =>
    intro u u' fees fees' rows h _
    cases h
    exact .refl _ _
  | cons t txs ih =>
    intro u u' fees fees' rows h hidle
    obtain ⟨hcb, u₁, fee, fees₁, hap, -, hrest⟩ := UtxoSet.applyRest_cons h
    obtain ⟨-, hins, -⟩ := UtxoSet.applyTransaction_ok hap
    have hspends : t.spends = t.inputs.map TxIn.previousOutput := by rw [Transaction.spends, hcb]; rfl
    have habsent : ∀ o, u.entries[o]? = none → o ∉ t.outpoints H → u₁.entries[o]? = none := by
      intro o hnone ho
      refine insertAll_absent hins ?_ ho
      rw [UtxoSet.get_removeInputs, hnone, ite_self]
    have hhead := carries_outputs rows u (fun o => by rw [hspends, UtxoSet.get_removeInputs]) hins
      (hidle.head habsent)
    exact hhead.trans (ih hrest (hidle.tail habsent))

/-- A block that applies is shown where it touches anything, once it is indexed. -/
theorem carries_block (rows : Table OutPoint AddressUtxoRow) {txs : List Transaction} {height fees : UInt64}
    (h : UtxoSet.applyBlock H u txs height = .ok (u', fees)) (hidle : CarriersIdle H u txs) :
    Carries H rows ((txs.map (extractTxPayload H)).foldl writtenRows rows) u u' (touched H txs) := by
  obtain ⟨cb, rest, u₁, rfl, hcb, hap, hrest⟩ := UtxoSet.applyBlock_ok h
  obtain ⟨-, hins⟩ := UtxoSet.applyCoinbase_ok hap
  have habsent : ∀ o, u.entries[o]? = none → o ∉ cb.outpoints H → u₁.entries[o]? = none :=
    fun o hnone ho => insertAll_absent hins hnone ho
  have hhead := carries_outputs rows u (t := cb) (fun o => by simp [Transaction.spends, hcb]) hins
    (hidle.head habsent)
  exact hhead.trans (carries_rest hrest (hidle.tail habsent))

/-! ## Balances -/

/-- The sum of the unspent outputs of an address. -/
def UtxoSet.balance (H : Hasher) (u : UtxoSet) (address : Bytes) : Nat :=
  Table.sumBy (fun e : UtxoEntry => if indexerAddress H e.output.lockingCondition = address then e.output.value.toNat else 0)
    u.entries

theorem UtxoSet.balance_le_total (u : UtxoSet) (address : Bytes) : u.balance H address ≤ u.total :=
  Table.sumBy_le (fun e => by split <;> omega) u.entries

/-- What the rows of an address add up to. -/
theorem getAddressBalance_shown {s : IndexerStore} (h : ∀ o, Shows H s.indexAddressUtxos u o) (htotal : u.total < 2 ^ 63)
    (address : Bytes) : s.getAddressBalance address = .ok (UInt64.ofNat (u.balance H address)) := by
  have hsum : Table.sumBy (balanceOf address) s.indexAddressUtxos = u.balance H address := by
    refine Table.sumBy_eq_of_shown fun o => ?_
    cases hu : u.entries[o]? with
    | some e =>
      rw [(h o).row e hu]
      simp [balanceOf, unspentRow]
    | none =>
      cases hr : s.indexAddressUtxos[o]? with
      | none => rfl
      | some row =>
        cases hsp : row.isSpent with
        | true => simp [balanceOf, hsp]
        | false =>
          rcases (h o).unspent row hr hsp with ⟨e, he⟩ | hzero
          · rw [hu] at he
            cases he
          · simp [balanceOf, hzero]
  have hle := u.balance_le_total (H := H) address
  rw [getAddressBalance, hsum]
  exact if_pos (by omega)

end Scytale
