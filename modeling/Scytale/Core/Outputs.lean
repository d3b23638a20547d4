/-
  Scytale.Core.Outputs — applying a block at one height or another
  (crates/scytale-core/src/utxo.rs).

  The height a block is applied at goes into the entries it creates and nowhere else. Two
  sets with the same outputs take the same transactions, for the same fees, and keep the
  same outputs.
  - `SameOutputs.applyBlock`: the verdict and the fees do not depend on the height.
-/
import Scytale.Core.Utxo

namespace Scytale

open Lib

namespace UtxoSet

/-- The same outputs at the same outpoints. -/
def SameOutputs (s t : UtxoSet) : Prop :=
  ∀ o : OutPoint, s.entries[o]?.map UtxoEntry.output = t.entries[o]?.map UtxoEntry.output

/-- Entries without their height and coinbase flag. -/
def outputsOf (l : List (OutPoint × UtxoEntry)) : List (OutPoint × TxOut) := l.map fun p => (p.1, p.2.output)

theorem createdFrom_outputs (txid : Hash256) (h h' : UInt64) (cb cb' : Bool) (os : List TxOut) : ∀ idx : Nat,
    outputsOf (createdFrom txid h cb idx os) = outputsOf (createdFrom txid h' cb' idx os) := by
  induction os with
  | nil => intro idx; rfl
  | cons o os ih =>
    intro idx
    simp only [createdFrom]
    split
    · exact ih _
    · simp only [outputsOf, List.map_cons]
      exact congrArg _ (ih _)

/-- Results with the same outputs and the same fees, or the same error. -/
def SameResult : Except UtxoError (UtxoSet × UInt64) → Except UtxoError (UtxoSet × UInt64) → Prop
  | .ok (s, fees), .ok (t, fees') => SameOutputs s t ∧ fees = fees'
  | .error e, .error e' => e = e'
  | _, _ => False

theorem SameResult.ok_iff {r r' : Except UtxoError (UtxoSet × UInt64)} (h : SameResult r r') (fees : UInt64) :
    (∃ s, r = .ok (s, fees)) ↔ ∃ t, r' = .ok (t, fees) := by
  rcases r with e | ⟨s, f⟩ <;> rcases r' with e' | ⟨t, f'⟩
  · exact ⟨fun ⟨_, he⟩ => (by cases he), fun ⟨_, he⟩ => (by cases he)⟩
  · exact absurd h id
  · exact absurd h id
  · obtain ⟨-, rfl⟩ := h
    constructor
    · rintro ⟨_, he⟩
      cases he
      exact ⟨t, rfl⟩
    · rintro ⟨_, he⟩
      cases he
      exact ⟨s, rfl⟩

namespace SameOutputs

variable {s t : UtxoSet}

theorem refl (s : UtxoSet) : SameOutputs s s := fun _ => rfl

/-- An outpoint is in neither set, or in both with one output. -/
theorem lookup (h : SameOutputs s t) (o : OutPoint) : (s.entries[o]? = none ∧ t.entries[o]? = none) ∨
    ∃ e e', s.entries[o]? = some e ∧ t.entries[o]? = some e' ∧ e.output = e'.output := by
  have ho := h o
  cases hs : s.entries[o]? with
  | none =>
    rw [hs, Option.map_none, eq_comm, Option.map_eq_none_iff] at ho
    exact .inl ⟨rfl, ho⟩
  | some e =>
    rw [hs, Option.map_some, eq_comm, Option.map_eq_some_iff] at ho
    obtain ⟨e', ht, hout⟩ := ho
    exact .inr ⟨e, e', rfl, ht, hout.symm⟩

theorem contains (h : SameOutputs s t) (o : OutPoint) : s.entries.contains o = t.entries.contains o := by
  rw [Table.contains_eq, Table.contains_eq]
  rcases h.lookup o with ⟨hs, ht⟩ | ⟨e, e', hs, ht, -⟩
  · rw [hs, ht]
  · rw [hs, ht]
    rfl

theorem entries_insert (h : SameOutputs s t) (o : OutPoint) {e e' : UtxoEntry} (he : e.output = e'.output) :
    SameOutputs ⟨s.entries.insert o e⟩ ⟨t.entries.insert o e'⟩ := by
  intro k
  rw [Table.get_insert, Table.get_insert]
  split
  · exact congrArg some he
  · exact h k

theorem insertAll : ∀ {l l' : List (OutPoint × UtxoEntry)} {s t : UtxoSet}, outputsOf l = outputsOf l' →
    SameOutputs s t → SameOutputs (insertAll s l).1 (UtxoSet.insertAll t l').1 ∧
      (UtxoSet.insertAll s l).2 = (UtxoSet.insertAll t l').2
  | [], [], s, t, _, h => ⟨h, rfl⟩
  | [], _ :: _, s, t, hl, h => by cases hl
  | _ :: _, [], s, t, hl, h => by cases hl
  | (o, e) :: l, (o', e') :: l', s, t, hl, h => by
    obtain ⟨hhead, htail⟩ := List.cons.inj hl
    obtain ⟨ho, he⟩ := Prod.mk.inj hhead
    obtain rfl : o = o' := ho
    simp only [UtxoSet.insertAll, UtxoSet.insert, h.contains o]
    cases t.entries.contains o with
    | true => exact ⟨h, rfl⟩
    | false => exact insertAll htail (h.entries_insert o he)

theorem created (H : Hasher) (tx : Transaction) (height height' : UInt64) (cb : Bool) :
    outputsOf (UtxoSet.created H height cb tx) = outputsOf (UtxoSet.created H height' cb tx) :=
  createdFrom_outputs _ _ _ _ _ _ _

theorem removeInputs (h : SameOutputs s t) (is : List TxIn) : SameOutputs (s.removeInputs is) (t.removeInputs is) := by
  intro o
  rw [get_removeInputs, get_removeInputs]
  split
  · rfl
  · exact h o

theorem sumInputs (h : SameOutputs s t) (is : List TxIn) : ∀ total : UInt64,
    UtxoSet.sumInputs s total is = UtxoSet.sumInputs t total is := by
  induction is with
  | nil => intro total; rfl
  | cons i is ih =>
    intro total
    rcases h.lookup i.previousOutput with ⟨hs, ht⟩ | ⟨e, e', hs, ht, hout⟩
    · simp only [UtxoSet.sumInputs, hs, ht]
    · simp only [UtxoSet.sumInputs, hs, ht, hout]
      cases checkedAdd total e'.output.value with
      | none => rfl
      | some total => exact ih total

variable (H : Hasher)

theorem applyTransaction (h : SameOutputs s t) (tx : Transaction) (height height' : UInt64) :
    SameOutputs (UtxoSet.applyTransaction H s tx height).1 (UtxoSet.applyTransaction H t tx height').1 ∧
      (UtxoSet.applyTransaction H s tx height).2 = (UtxoSet.applyTransaction H t tx height').2 := by
  obtain ⟨hsets, hres⟩ := insertAll (created H tx height height' false) (h.removeInputs tx.inputs)
  simp only [UtxoSet.applyTransaction, h.sumInputs tx.inputs]
  split
  · exact ⟨h, rfl⟩
  · split
    · exact ⟨h, rfl⟩
    · split
      · exact ⟨h, rfl⟩
      · split
        · exact ⟨h, rfl⟩
        · cases hl : UtxoSet.insertAll (s.removeInputs tx.inputs) (UtxoSet.created H height false tx) with
          | mk s' r =>
            cases hr : UtxoSet.insertAll (t.removeInputs tx.inputs) (UtxoSet.created H height' false tx) with
            | mk t' r' =>
              rw [hl, hr] at hsets hres
              obtain rfl : r = r' := hres
              cases r <;> exact ⟨hsets, rfl⟩

theorem applyCoinbase (h : SameOutputs s t) (tx : Transaction) (height height' : UInt64) :
    SameOutputs (UtxoSet.applyCoinbase H s tx height).1 (UtxoSet.applyCoinbase H t tx height').1 ∧
      (UtxoSet.applyCoinbase H s tx height).2 = (UtxoSet.applyCoinbase H t tx height').2 := by
  simp only [UtxoSet.applyCoinbase]
  split
  · exact ⟨h, rfl⟩
  · split
    · exact ⟨h, rfl⟩
    · split
      · exact ⟨h, rfl⟩
      · exact insertAll (created H tx height height' true) h

theorem applyRest (height height' : UInt64) (txs : List Transaction) : ∀ {s t : UtxoSet}, SameOutputs s t →
    ∀ fees : UInt64, SameResult (UtxoSet.applyRest H height s fees txs) (UtxoSet.applyRest H height' t fees txs) := by
  induction txs with
  | nil => intro s t h fees; exact ⟨h, rfl⟩
  | cons tx txs ih =>
    intro s t h fees
    obtain ⟨hsets, hres⟩ := h.applyTransaction H tx height height'
    simp only [UtxoSet.applyRest]
    split
    · rfl
    · cases hl : UtxoSet.applyTransaction H s tx height with
      | mk s' r =>
        cases hr : UtxoSet.applyTransaction H t tx height' with
        | mk t' r' =>
          rw [hl, hr] at hsets hres
          obtain rfl : r = r' := hres
          cases r with
          | error e => rfl
          | ok fee =>
            simp only
            cases checkedAdd fees fee with
            | none => rfl
            | some fees => exact ih hsets fees

/-- Two sets with the same outputs take the same blocks, for the same fees, whatever the
    heights. -/
theorem applyBlock (h : SameOutputs s t) (txs : List Transaction) (height height' : UInt64) :
    SameResult (UtxoSet.applyBlock H s txs height) (UtxoSet.applyBlock H t txs height') := by
  unfold UtxoSet.applyBlock
  cases txs with
  | nil => rfl
  | cons cb rest =>
    simp only
    split
    · rfl
    · obtain ⟨hsets, hres⟩ := h.applyCoinbase H cb height height'
      cases hl : UtxoSet.applyCoinbase H s cb height with
      | mk s' r =>
        cases hr : UtxoSet.applyCoinbase H t cb height' with
        | mk t' r' =>
          rw [hl, hr] at hsets hres
          obtain rfl : r = r' := hres
          cases r with
          | error e => rfl
          | ok => exact applyRest H height height' rest hsets 0

end SameOutputs

end UtxoSet

end Scytale
