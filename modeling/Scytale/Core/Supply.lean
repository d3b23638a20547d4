/-
  Scytale.Core.Supply — value is conserved by the block transition.

  - `applyTransaction_weight`: whatever outputs are weighed by, a transaction takes out what
    its inputs find and puts in its outputs, the data carriers excepted.
  - `applyTransaction_total`: inputs = what stays unspent + the fee + what went into data
    carriers.
  - `applyBlock_total`: over a whole block the set's value moves by the coinbase, less
    the fees and what was burned.
  - `totalQuanta_eq`: the checked sum of `total_quanta` is the set's value, whenever that
    fits in 64 bits.
-/
import Scytale.Core.Utxo

namespace Scytale.UtxoSet

open Lib

/-- The value of all unspent outputs. -/
def total (s : UtxoSet) : Nat := Table.sumBy (fun e : UtxoEntry => e.output.value.toNat) s.entries

/-- The value of the outputs that never enter the set. -/
def burned (os : List TxOut) : Nat := Transaction.outputSum (os.filter TxOut.isOpReturn)

@[simp] theorem total_new : new.total = 0 := Table.sumBy_empty _

/-! ## Sums over the unspent outputs

`w` gives every output its weight, its value or what of it is somebody's. -/

section
variable (w : TxOut → Nat)

def weight (s : UtxoSet) : Nat := Table.sumBy (fun e : UtxoEntry => w e.output) s.entries

/-- The weight of what inputs find in a set. -/
def spentWeight (s : UtxoSet) (is : List TxIn) : Nat :=
  (is.map fun i => (s.entries[i.previousOutput]?).elim 0 fun e => w e.output).sum

/-- The weight of the outputs that never enter a set. -/
def carrierWeight (os : List TxOut) : Nat := ((os.filter TxOut.isOpReturn).map w).sum

theorem insertAll_weight {l : List (OutPoint × UtxoEntry)} : ∀ {s s' : UtxoSet}, insertAll s l = (s', .ok ()) →
    s'.weight w = s.weight w + (l.map fun p => w p.2.output).sum := by
  induction l with
  | nil => intro s s' h; cases h; simp
  | cons p l ih =>
    obtain ⟨o, e⟩ := p
    intro s s' h
    unfold insertAll at h
    split at h
    · cases h
    · rename_i s₁ h₁
      obtain ⟨hnone, hent⟩ := insert_ok h₁
      have h2 : s₁.weight w = w e.output + s.weight w := by rw [weight, hent, Table.sumBy_insert _ _ hnone]; rfl
      rw [ih h, h2]
      simp only [List.map_cons, List.sum_cons]
      omega

/-- What a transaction creates and what it carries are all its outputs. -/
theorem createdFrom_weight (txid : Hash256) (height : UInt64) (cb : Bool) (os : List TxOut) : ∀ idx : Nat,
    ((createdFrom txid height cb idx os).map fun p => w p.2.output).sum + carrierWeight w os = (os.map w).sum := by
  induction os with
  | nil => intro idx; rfl
  | cons o os ih =>
    intro idx
    have := ih (idx + 1)
    cases ho : o.isOpReturn <;>
      simp only [createdFrom, carrierWeight, ho, if_true, List.filter_cons, List.map_cons, List.sum_cons,
        Bool.false_eq_true, if_false] at * <;> omega

theorem spentWeight_eq {s : UtxoSet} : ∀ {is : List TxIn} {spent : List UtxoEntry},
    is.map (fun i => s.entries[i.previousOutput]?) = spent.map some →
      s.spentWeight w is = (spent.map fun e => w e.output).sum := by
  intro is
  induction is with
  | nil =>
    intro spent h
    obtain rfl : spent = [] := by simpa using h.symm
    rfl
  | cons i is ih =>
    intro spent h
    rcases spent with _ | ⟨e, spent⟩
    · simp at h
    · simp only [List.map_cons, List.cons.injEq] at h
      have := ih h.2
      rw [spentWeight] at this ⊢
      simp [h.1, this]

theorem removeInputs_weight {s : UtxoSet} {is : List TxIn} {spent : List UtxoEntry}
    (hn : (is.map TxIn.previousOutput).Nodup)
    (hs : is.map (fun i => s.entries[i.previousOutput]?) = spent.map some) :
    (s.removeInputs is).weight w + s.spentWeight w is = s.weight w := by
  rw [spentWeight_eq w hs]
  refine Table.sumBy_eraseAll _ _ _ spent hn ?_
  rw [← hs, List.map_map]
  rfl

/-- Inputs leave the set, and the outputs but the carriers come in. -/
theorem applyTransaction_weight {H : Hasher} {s s' : UtxoSet} {tx : Transaction} {height fee : UInt64}
    (h : applyTransaction H s tx height = (s', .ok fee)) :
    s'.weight w + s.spentWeight w tx.inputs + carrierWeight w tx.outputs = s.weight w + (tx.outputs.map w).sum := by
  obtain ⟨hv, hins, spent, hs, -⟩ := applyTransaction_ok h
  have h1 := removeInputs_weight w (Transaction.validateStateless_ok hv).2 hs
  have h2 := insertAll_weight w hins
  have h3 := createdFrom_weight w (tx.txid H) height false tx.outputs 0
  rw [created] at h2
  omega

end

/-! ## The value of a set -/

theorem insertAll_total {l : List (OutPoint × UtxoEntry)} {s s' : UtxoSet} (h : insertAll s l = (s', .ok ())) :
    s'.total = s.total + valueSum (l.map (·.2)) := by
  rw [valueSum, List.map_map]
  exact insertAll_weight (fun o => o.value.toNat) h

theorem createdFrom_sum (txid : Hash256) (height : UInt64) (cb : Bool) (os : List TxOut) (idx : Nat) :
    valueSum ((createdFrom txid height cb idx os).map (·.2)) + burned os = Transaction.outputSum os := by
  rw [valueSum, List.map_map]
  exact createdFrom_weight (fun o => o.value.toNat) txid height cb os idx

theorem applyTransaction_total {H : Hasher} {s s' : UtxoSet} {tx : Transaction} {height fee : UInt64}
    (h : applyTransaction H s tx height = (s', .ok fee)) : s'.total + fee.toNat + burned tx.outputs = s.total := by
  obtain ⟨-, -, spent, hs, hfee⟩ := applyTransaction_ok h
  have hweight : s'.total + s.spentWeight (fun o => o.value.toNat) tx.inputs + burned tx.outputs =
      s.total + Transaction.outputSum tx.outputs := applyTransaction_weight (fun o => o.value.toNat) h
  have hspent : s.spentWeight (fun o => o.value.toNat) tx.inputs = valueSum spent :=
    spentWeight_eq (fun o => o.value.toNat) hs
  omega

theorem applyCoinbase_total {H : Hasher} {s s' : UtxoSet} {tx : Transaction} {height : UInt64}
    (h : applyCoinbase H s tx height = (s', .ok ())) :
    s'.total + burned tx.outputs = s.total + Transaction.outputSum tx.outputs := by
  have h2 := insertAll_total (applyCoinbase_ok h).2
  have h3 := createdFrom_sum (tx.txid H) height true tx.outputs 0
  rw [created] at h2
  omega

/-- What the transactions of a list burn. -/
def burnedBy (txs : List Transaction) : Nat := (txs.map fun t => burned t.outputs).sum

theorem applyRest_total {H : Hasher} {height : UInt64} {txs : List Transaction} : ∀ {s s' : UtxoSet} {fees fees' : UInt64},
    applyRest H height s fees txs = .ok (s', fees') →
    s'.total + fees'.toNat + burnedBy txs = s.total + fees.toNat := by
  induction txs with
  | nil => intro s s' fees fees' h; cases h; simp [burnedBy]
  | cons tx txs ih =>
    intro s s' fees fees' h
    obtain ⟨-, s₁, fee, fees₁, hap, hadd, hrest⟩ := applyRest_cons h
    have h1 := applyTransaction_total hap
    have h2 := checkedAdd_eq_some hadd
    have h3 := ih hrest
    simp only [burnedBy, List.map_cons, List.sum_cons] at *
    omega

/-- Over a block the value moves by the coinbase, less the fees and what was burned. -/
theorem applyBlock_total {H : Hasher} {s s' : UtxoSet} {cb : Transaction} {rest : List Transaction} {height fees : UInt64}
    (h : applyBlock H s (cb :: rest) height = .ok (s', fees)) :
    s'.total + fees.toNat + burnedBy (cb :: rest) = s.total + Transaction.outputSum cb.outputs := by
  obtain ⟨cb', rest', s₁, he, -, hcb, hrest⟩ := applyBlock_ok h
  cases he
  have h1 := applyCoinbase_total hcb
  have h2 := applyRest_total hrest
  have h0 : (0 : UInt64).toNat = 0 := rfl
  rw [h0] at h2
  simp only [burnedBy, List.map_cons, List.sum_cons] at *
  omega

/-! ## The checked sum -/

theorem sumValues_of_lt {es : List UtxoEntry} : ∀ acc : UInt64, acc.toNat + valueSum es < 2 ^ 64 →
    ∃ r, sumValues acc es = .ok r ∧ r.toNat = acc.toNat + valueSum es := by
  induction es with
  | nil => intro acc _; exact ⟨acc, rfl, rfl⟩
  | cons e es ih =>
    intro acc h
    have hs : valueSum (e :: es) = e.output.value.toNat + valueSum es := by simp [valueSum]
    have hlt : acc.toNat + e.output.value.toNat < 2 ^ 64 := by omega
    have hadd := checkedAdd_of_lt hlt
    have hval := checkedAdd_eq_some hadd
    obtain ⟨r, hr, hrv⟩ := ih (acc + e.output.value) (by omega)
    exact ⟨r, by rw [sumValues, hadd]; exact hr, by omega⟩

theorem totalQuanta_eq {s : UtxoSet} (h : s.total < 2 ^ 64) : ∃ r, s.totalQuanta = .ok r ∧ r.toNat = s.total := by
  have hv : valueSum (s.entries.toList.map (·.2)) = s.total := by
    simp only [valueSum, total, Table.sumBy, List.map_map]
    rfl
  have h0 : (0 : UInt64).toNat = 0 := rfl
  obtain ⟨r, hr, hrv⟩ := sumValues_of_lt 0 (show _ + valueSum (s.entries.toList.map (·.2)) < 2 ^ 64 by omega)
  exact ⟨r, hr, by omega⟩

end Scytale.UtxoSet
