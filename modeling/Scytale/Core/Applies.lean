/-
  Scytale.Core.Applies — when a transaction applies (crates/scytale-core/src/utxo.rs).

  - `createdFrom_output` / `mem_createdFrom`: exactly the outputs that carry no data are
    created, each under its index.
  - `applyTransaction_of_fresh`: a transaction applies where it spends what is there, its
    inputs add up to at least its outputs, and what it creates is new.
  - `totalQuanta_ok`: a checked sum that succeeds is the set's value.
-/
import Scytale.Core.Supply

namespace Scytale

open Lib

theorem createdFrom_output {txid : Hash256} {height : UInt64} {cb : Bool} {os : List TxOut} : ∀ {idx : Nat},
    ∀ p ∈ UtxoSet.createdFrom txid height cb idx os, ∃ j < os.length, os[j]? = some p.2.output ∧
      p.1 = ⟨txid, UInt32.ofNat (idx + j)⟩ := by
  induction os with
  | nil => intro idx p hp; cases hp
  | cons o os ih =>
    intro idx p hp
    have hlater : p ∈ UtxoSet.createdFrom txid height cb (idx + 1) os → ∃ j < (o :: os).length,
        (o :: os)[j]? = some p.2.output ∧ p.1 = ⟨txid, UInt32.ofNat (idx + j)⟩ := by
      intro hp
      obtain ⟨j, hj, hout, hkey⟩ := ih p hp
      refine ⟨j + 1, by simpa using hj, by simpa using hout, ?_⟩
      rw [hkey, show idx + 1 + j = idx + (j + 1) from by omega]
    simp only [UtxoSet.createdFrom] at hp
    split at hp
    · exact hlater hp
    · rcases List.mem_cons.mp hp with rfl | hp
      · exact ⟨0, by simp, rfl, rfl⟩
      · exact hlater hp

namespace UtxoSet

variable {H : Hasher} {s : UtxoSet}

theorem mem_createdFrom (txid : Hash256) (height : UInt64) (cb : Bool) {out : TxOut} (hout : out.isOpReturn = false)
    {os : List TxOut} : ∀ {idx j : Nat}, os[j]? = some out →
      (⟨txid, UInt32.ofNat (idx + j)⟩, ⟨out, height, cb⟩) ∈ createdFrom txid height cb idx os := by
  induction os with
  | nil => intro idx j h; simp at h
  | cons o os ih =>
    intro idx j h
    cases j with
    | zero =>
      obtain rfl : o = out := by simpa using h
      rw [createdFrom, hout]
      exact List.mem_cons_self
    | succ j =>
      have hlater : (⟨txid, UInt32.ofNat (idx + 1 + j)⟩, ⟨out, height, cb⟩) ∈ createdFrom txid height cb (idx + 1) os :=
        ih (by simpa using h)
      rw [show idx + 1 + j = idx + (j + 1) from by omega] at hlater
      rw [createdFrom]
      split
      · exact hlater
      · exact List.mem_cons_of_mem _ hlater

/-- The indexes differ as long as they fit. -/
theorem createdFrom_nodup (txid : Hash256) (height : UInt64) (cb : Bool) (os : List TxOut) : ∀ idx : Nat,
    idx + os.length ≤ 2 ^ 32 → ((createdFrom txid height cb idx os).map (·.1)).Nodup := by
  induction os with
  | nil => intro idx _; exact List.nodup_nil
  | cons o os ih =>
    intro idx hidx
    rw [List.length_cons] at hidx
    have hrest := ih (idx + 1) (by omega)
    rw [createdFrom]
    split
    · exact hrest
    · refine List.nodup_cons.mpr ⟨fun hmem => ?_, hrest⟩
      obtain ⟨p, hp, hkey⟩ := List.mem_map.mp hmem
      obtain ⟨j, hj, -, hp⟩ := createdFrom_output p hp
      have hindex : UInt32.ofNat (idx + 1 + j) = UInt32.ofNat idx := congrArg OutPoint.index (hp.symm.trans hkey)
      have hnat := congrArg UInt32.toNat hindex
      rw [UInt32.toNat_ofNat', UInt32.toNat_ofNat', Nat.mod_eq_of_lt (by omega), Nat.mod_eq_of_lt (by omega)] at hnat
      omega

/-- Each output that carries no data is created under its index. -/
theorem mem_created {t : Transaction} {index : UInt32} {out : TxOut} (h : t.outputs[index.toNat]? = some out)
    (hout : out.isOpReturn = false) (height : UInt64) (cb : Bool) :
    (⟨t.txid H, index⟩, ⟨out, height, cb⟩) ∈ created H height cb t := by
  have hmem : (⟨t.txid H, UInt32.ofNat (0 + index.toNat)⟩, ⟨out, height, cb⟩) ∈ createdFrom (t.txid H) height cb 0 t.outputs :=
    mem_createdFrom _ _ _ hout h
  rw [Nat.zero_add, UInt32.ofNat_toNat] at hmem
  exact hmem

/-- What is created stands under the transaction's identifier, at the place of an output. -/
theorem outpoints_index {t : Transaction} {o : OutPoint} (h : o ∈ t.outpoints H) (hsized : t.outputs.length < 2 ^ 32) :
    o.txid = t.txid H ∧ o.index.toNat < t.outputs.length := by
  obtain ⟨p, hp, rfl⟩ := List.mem_map.mp h
  obtain ⟨j, hj, -, hkey⟩ := createdFrom_output p hp
  rw [hkey]
  refine ⟨rfl, ?_⟩
  rw [UInt32.toNat_ofNat', Nat.zero_add, Nat.mod_eq_of_lt (by omega)]
  exact hj

theorem sumInputs_of_lt {is : List TxIn} : ∀ {spent : List UtxoEntry} {total : UInt64},
    is.map (fun i => s.entries[i.previousOutput]?) = spent.map some → total.toNat + valueSum spent < 2 ^ 64 →
      ∃ r, sumInputs s total is = .ok r ∧ r.toNat = total.toNat + valueSum spent := by
  induction is with
  | nil =>
    intro spent total h _
    obtain rfl : spent = [] := by simpa using h.symm
    exact ⟨total, rfl, rfl⟩
  | cons i is ih =>
    intro spent total h hlt
    cases spent with
    | nil => simp at h
    | cons e spent =>
      rw [List.map_cons, List.map_cons, List.cons.injEq] at h
      have hsum : valueSum (e :: spent) = e.output.value.toNat + valueSum spent := by simp [valueSum]
      have hadd := checkedAdd_of_lt (show total.toNat + e.output.value.toNat < 2 ^ 64 by omega)
      have hval := checkedAdd_eq_some hadd
      have hrest : (total + e.output.value).toNat + valueSum spent < 2 ^ 64 := by omega
      obtain ⟨r, hr, hrv⟩ := ih h.2 hrest
      exact ⟨r, by rw [sumInputs, h.1]; simp only [hadd]; exact hr, by omega⟩

/-- What it spends is there, its value suffices, and what it creates is new: it applies. -/
theorem applyTransaction_of_fresh {tx : Transaction} {spent : List UtxoEntry} {totalOut : UInt64} (height : UInt64)
    (hv : tx.validateStateless = .ok ()) (hspent : tx.inputs.map (fun i => s.entries[i.previousOutput]?) = spent.map some)
    (hlt : valueSum spent < 2 ^ 64) (hout : tx.totalOutputQuanta = .ok totalOut) (hle : totalOut.toNat ≤ valueSum spent)
    (hsized : tx.outputs.length ≤ 2 ^ 32) (hfresh : ∀ o ∈ tx.outpoints H, s.entries[o]? = none) :
    ∃ s' fee, applyTransaction H s tx height = (s', .ok fee) ∧ fee.toNat + totalOut.toNat = valueSum spent := by
  have h0 : (0 : UInt64).toNat = 0 := rfl
  have hin0 : (0 : UInt64).toNat + valueSum spent < 2 ^ 64 := by omega
  obtain ⟨totalIn, hin, hval⟩ := sumInputs_of_lt hspent hin0
  have hle : ¬totalOut > totalIn := UInt64.not_lt.mpr (UInt64.le_iff_toNat_le.mpr (by omega))
  have hnew : ∀ p ∈ created H height false tx, (s.removeInputs tx.inputs).entries[p.1]? = none := by
    intro p hp
    have hkey := List.mem_map_of_mem (f := (·.1)) hp
    rw [created_keys] at hkey
    rw [get_removeInputs, hfresh p.1 hkey, ite_self]
  obtain ⟨s', hins⟩ : ∃ s', insertAll (s.removeInputs tx.inputs) (created H height false tx) = (s', .ok ()) :=
    insertAll_of_fresh (createdFrom_nodup _ _ _ _ _ (by omega)) hnew
  refine ⟨s', totalIn - totalOut, ?_, ?_⟩
  · simp only [applyTransaction, hv, hin, hout, if_neg hle, hins]
  · have hsub := UInt64.toNat_sub_of_le _ _ (UInt64.not_lt.mp hle)
    have hle := UInt64.le_iff_toNat_le.mp (UInt64.not_lt.mp hle)
    omega

theorem sumValues_ok {es : List UtxoEntry} : ∀ {acc r : UInt64}, sumValues acc es = .ok r →
    r.toNat = acc.toNat + valueSum es := by
  induction es with
  | nil => intro acc r h; cases h; rfl
  | cons e es ih =>
    intro acc r h
    unfold sumValues at h
    split at h
    · rename_i t ht
      have hrest := ih h
      have hval := checkedAdd_eq_some ht
      have hsum : valueSum (e :: es) = e.output.value.toNat + valueSum es := by simp [valueSum]
      omega
    · cases h

theorem totalQuanta_ok {r : UInt64} (h : s.totalQuanta = .ok r) : r.toNat = s.total := by
  have hval : valueSum (s.entries.toList.map (·.2)) = s.total := by
    simp only [valueSum, total, Table.sumBy, List.map_map]
    rfl
  have h0 : (0 : UInt64).toNat = 0 := rfl
  have hsum := sumValues_ok h
  omega

end UtxoSet

end Scytale
