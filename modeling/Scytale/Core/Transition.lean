/-
  Scytale.Core.Transition — the transitions of the set as its callers see them, on success
  and on failure (crates/scytale-core/src/utxo.rs).

  `apply_block` works on a copy and puts it in place after the last step, `apply_transaction`
  and `apply_coinbase` on the set itself.
  - `applyBlockInPlace_conserves`: a block that applies moves the total by its coinbase, its
    fees and what it burns, and nothing it does not mention; one that fails changes nothing.
  - `unchanged_on_error_iff`: a single transaction that fails has changed nothing exactly when
    the outputs it creates are free, or the check that refuses it comes before the first
    change: an output that is there already is found while the outputs go in.
-/
import Scytale.Core.Supply
import Scytale.Blake3

namespace Scytale

open Lib

namespace UtxoSet

/-! ## The block transition on the set itself -/

section
variable (H : Hasher)

/-- The loop over the transactions after the coinbase, with the set, the copy the steps change
    and the fees so far; after the last the copy takes the set's place. -/
def stageRest (height : UInt64) (self : UtxoSet) : UtxoSet → UInt64 → List Transaction → UtxoSet × Except UtxoError UInt64
  | staging, fees, [] => (staging, .ok fees)
  | staging, fees, tx :: txs =>
    if tx.isCoinbase then (self, .error .invalidCoinbasePlacement)
    else match applyTransaction H staging tx height with
      | (_, .error e) => (self, .error e)
      | (staging, .ok fee) =>
        match checkedAdd fees fee with
        | none => (self, .error .arithmeticOverflow)
        | some fees => stageRest height self staging fees txs

/-- `apply_block` on `&mut self`: the set it leaves, with its result. -/
def applyBlockInPlace (self : UtxoSet) (txs : List Transaction) (height : UInt64) : UtxoSet × Except UtxoError UInt64 :=
  match txs with
  | [] => (self, .error (.txError .emptyOutputs))
  | cb :: rest =>
    if !cb.isCoinbase then (self, .error .invalidCoinbasePlacement)
    else match applyCoinbase H self cb height with
      | (_, .error e) => (self, .error e)
      | (staging, .ok ()) => stageRest H height self staging 0 rest

/-- The outpoints a transaction spends or creates. -/
def mentioned (t : Transaction) : List OutPoint := t.inputs.map TxIn.previousOutput ++ t.outpoints H

end

/-- The value of the outputs that enter the set. -/
def spendable (os : List TxOut) : Nat := Transaction.outputSum (os.filter fun o => !o.isOpReturn)

variable {H : Hasher} {height : UInt64}

/-- The loop on the set and the copy is the loop on the copy. -/
theorem stageRest_eq {self : UtxoSet} {txs : List Transaction} : ∀ {staging : UtxoSet} {fees : UInt64},
    stageRest H height self staging fees txs =
      match applyRest H height staging fees txs with
      | .ok (s, fees) => (s, .ok fees)
      | .error e => (self, .error e) := by
  induction txs with
  | nil => intro staging fees; rfl
  | cons tx txs ih =>
    intro staging fees
    unfold stageRest applyRest
    cases hcb : tx.isCoinbase with
    | true => rfl
    | false =>
      simp only [Bool.false_eq_true, if_false]
      rcases applyTransaction H staging tx height with ⟨s', e | fee⟩
      · rfl
      · simp only
        cases checkedAdd fees fee with
        | none => rfl
        | some fees => exact ih

/-- So the block transition in place is the one that gives no set on failure. -/
theorem applyBlockInPlace_eq (self : UtxoSet) (txs : List Transaction) :
    applyBlockInPlace H self txs height =
      match applyBlock H self txs height with
      | .ok (s, fees) => (s, .ok fees)
      | .error e => (self, .error e) := by
  cases txs with
  | nil => rfl
  | cons cb rest =>
    simp only [applyBlockInPlace, applyBlock]
    cases hcb : cb.isCoinbase with
    | false => rfl
    | true =>
      simp only [Bool.not_true, Bool.false_eq_true, if_false]
      rcases applyCoinbase H self cb height with ⟨s', e | ⟨⟩⟩
      · rfl
      · exact stageRest_eq

/-! ## What a block leaves alone -/

theorem insertAll_other {l : List (OutPoint × UtxoEntry)} {s s' : UtxoSet} (h : insertAll s l = (s', .ok ())) {o : OutPoint}
    (ho : o ∉ l.map (·.1)) : s'.entries[o]? = s.entries[o]? := (insertAll_ok h).2.2.2 o ho

theorem applyTransaction_other {s s' : UtxoSet} {tx : Transaction} {fee : UInt64}
    (h : applyTransaction H s tx height = (s', .ok fee)) {o : OutPoint} (ho : o ∉ mentioned H tx) :
    s'.entries[o]? = s.entries[o]? := by
  rw [mentioned, List.mem_append, not_or] at ho
  obtain ⟨-, hins, -⟩ := applyTransaction_ok h
  rw [insertAll_other hins (by rw [created_keys]; exact ho.2), get_removeInputs, if_neg ho.1]

theorem applyRest_other {txs : List Transaction} {o : OutPoint} : ∀ {s s' : UtxoSet} {fees fees' : UInt64},
    applyRest H height s fees txs = .ok (s', fees') → (∀ t ∈ txs, o ∉ mentioned H t) → s'.entries[o]? = s.entries[o]? := by
  induction txs with
  | nil => intro s s' fees fees' h _; cases h; rfl
  | cons tx txs ih =>
    intro s s' fees fees' h ho
    obtain ⟨-, s₁, fee, fees₁, hap, -, hrest⟩ := applyRest_cons h
    rw [ih hrest fun t ht => ho t (List.mem_cons_of_mem _ ht), applyTransaction_other hap (ho tx List.mem_cons_self)]

theorem applyBlock_other {txs : List Transaction} {o : OutPoint} {s s' : UtxoSet} {fees : UInt64}
    (h : applyBlock H s txs height = .ok (s', fees)) (ho : ∀ t ∈ txs, o ∉ mentioned H t) :
    s'.entries[o]? = s.entries[o]? := by
  obtain ⟨cb, rest, s₁, rfl, -, hcb, hrest⟩ := applyBlock_ok h
  have hcbo := ho cb List.mem_cons_self
  rw [mentioned, List.mem_append, not_or] at hcbo
  rw [applyRest_other hrest fun t ht => ho t (List.mem_cons_of_mem _ ht),
    insertAll_other (applyCoinbase_ok hcb).2 (by rw [created_keys]; exact hcbo.2)]

/-! ## Conservation -/

theorem spendable_add_burned (os : List TxOut) : spendable os + burned os = Transaction.outputSum os := by
  induction os with
  | nil => rfl
  | cons o os ih =>
    cases ho : o.isOpReturn <;>
      simp only [spendable, burned, Transaction.outputSum, List.filter_cons, ho, Bool.not_true, Bool.not_false, if_true,
        Bool.false_eq_true, if_false, List.map_cons, List.sum_cons] at * <;> omega

/-- Over the integers: the total after a block is the total before, with the coinbase's outputs
    that enter the set, less the fees and what the other transactions burn. What the block does
    not mention stays; a block that fails leaves the set. -/
theorem applyBlockInPlace_conserves (H : Hasher) (s : UtxoSet) (txs : List Transaction) (height : UInt64) :
    match applyBlockInPlace H s txs height with
    | (s', .ok fees) =>
      (∃ cb rest, txs = cb :: rest ∧
        (s'.total : ℤ) = s.total + spendable cb.outputs - fees.toNat - burnedBy rest) ∧
      ∀ o, (∀ t ∈ txs, o ∉ mentioned H t) → s'.entries[o]? = s.entries[o]?
    | (s', .error _) => s' = s := by
  rw [applyBlockInPlace_eq]
  cases h : applyBlock H s txs height with
  | error e => rfl
  | ok r =>
    obtain ⟨s', fees⟩ := r
    obtain ⟨cb, rest, -, rfl, -⟩ := applyBlock_ok h
    refine ⟨⟨cb, rest, rfl, ?_⟩, fun o ho => applyBlock_other h ho⟩
    have htotal := applyBlock_total h
    have hcb := spendable_add_burned cb.outputs
    simp only [burnedBy, List.map_cons, List.sum_cons] at htotal ⊢
    omega

/-! ## A transaction that fails -/

/-- The checks `apply_transaction` makes before its first change. -/
structure Covered (s : UtxoSet) (tx : Transaction) : Prop where
  stateless : tx.validateStateless = .ok ()
  funded : ∃ totalIn totalOut, s.sumInputs 0 tx.inputs = .ok totalIn ∧ tx.totalOutputQuanta = .ok totalOut ∧
    totalOut ≤ totalIn

/-- And those of `apply_coinbase`. -/
structure Payable (tx : Transaction) : Prop where
  outputs : tx.outputs ≠ []
  positive : ∀ o ∈ tx.outputs, o.value = 0 → o.isOpReturn = true
  summed : ∃ total, tx.totalOutputQuanta = .ok total

/-- The outpoints of the list are distinct and not in the set. -/
def Free (s : UtxoSet) (l : List (OutPoint × UtxoEntry)) : Prop :=
  (l.map (·.1)).Nodup ∧ ∀ p ∈ l, s.entries[p.1]? = none

/-- What goes in before the first outpoint that is taken is what the inputs took out: with no
    inputs, the first outpoint is taken; else the transaction spends outputs of its own. -/
def PutsBack (s : UtxoSet) (is : List TxIn) (l : List (OutPoint × UtxoEntry)) : Prop :=
  ∃ put p rest, l = put ++ p :: rest ∧ (put.map (·.1)).Nodup ∧
    (∀ q ∈ put, s.entries[q.1]? = some q.2 ∧ q.1 ∈ is.map TxIn.previousOutput) ∧
    (∀ o ∈ is.map TxIn.previousOutput, o ∈ put.map (·.1)) ∧ ∃ e, s.entries[p.1]? = some e

theorem applyTransaction_of_covered {s : UtxoSet} {tx : Transaction} (h : Covered s tx) (height : UInt64) :
    ∃ fee, applyTransaction H s tx height =
      match insertAll (s.removeInputs tx.inputs) (created H height false tx) with
      | (s', .error e) => (s', .error e)
      | (s', .ok ()) => (s', .ok fee) := by
  obtain ⟨hv, totalIn, totalOut, hin, hout, hle⟩ := h
  refine ⟨totalIn - totalOut, ?_⟩
  have hlt : ¬totalOut > totalIn := UInt64.not_lt.mpr hle
  rcases hins : insertAll (s.removeInputs tx.inputs) (created H height false tx) with ⟨s', e | ⟨⟩⟩
  · simp only [applyTransaction, hv, hin, hout, hlt, if_false, hins]
  · simp only [applyTransaction, hv, hin, hout, hlt, if_false, hins]

theorem applyTransaction_of_not_covered {s : UtxoSet} {tx : Transaction} (h : ¬Covered s tx) (height : UInt64) :
    ∃ e, applyTransaction H s tx height = (s, .error e) := by
  unfold applyTransaction
  split
  · exact ⟨_, rfl⟩
  · rename_i hv
    split
    · exact ⟨_, rfl⟩
    · rename_i totalIn hin
      split
      · exact ⟨_, rfl⟩
      · rename_i totalOut hout
        split
        · exact ⟨_, rfl⟩
        · rename_i hle
          exact absurd ⟨hv, totalIn, totalOut, hin, hout, UInt64.not_lt.mp hle⟩ h

theorem applyCoinbase_of_payable {s : UtxoSet} {tx : Transaction} (h : Payable tx) :
    applyCoinbase H s tx height = insertAll s (created H height true tx) := by
  obtain ⟨hne, hpos, total, hout⟩ := h
  have hempty : tx.outputs.isEmpty = false := by simpa using hne
  have hzero : tx.outputs.any (fun o => o.value == 0 && !o.isOpReturn) = false := by
    simpa [List.any_eq_false] using hpos
  simp only [applyCoinbase, hempty, hzero, hout, Bool.false_eq_true, if_false]

theorem applyCoinbase_of_not_payable {tx : Transaction} (h : ¬Payable tx) (s : UtxoSet) (height : UInt64) :
    ∃ e, applyCoinbase H s tx height = (s, .error e) := by
  unfold applyCoinbase
  split
  · exact ⟨_, rfl⟩
  · rename_i hempty
    split
    · exact ⟨_, rfl⟩
    · rename_i hzero
      split
      · exact ⟨_, rfl⟩
      · rename_i total hout
        refine absurd ⟨by simpa using hempty, ?_, total, hout⟩ h
        simpa [List.any_eq_true] using hzero

/-- The insertion loop stops where an outpoint is taken, with what it inserted before. -/
theorem insertAll_error {l : List (OutPoint × UtxoEntry)} : ∀ {s s' : UtxoSet} {err : UtxoError},
    insertAll s l = (s', .error err) ↔ ∃ put p rest, l = put ++ p :: rest ∧ insertAll s put = (s', .ok ()) ∧
      (∃ e, s'.entries[p.1]? = some e) ∧ err = .duplicateOutPoint p.1 := by
  induction l with
  | nil => intro s s' err; simp [insertAll]
  | cons q l ih =>
    obtain ⟨o, e⟩ := q
    intro s s' err
    cases hc : s.entries.contains o with
    | true =>
      -- the first outpoint is taken, and nothing went in before it
      simp only [insertAll, insert, hc, if_true, Prod.mk.injEq, Except.error.injEq]
      constructor
      · rintro ⟨rfl, rfl⟩
        exact ⟨[], (o, e), l, rfl, rfl, (Table.contains_iff _ _).mp hc, rfl⟩
      · rintro ⟨put, p, rest, hl, hput, hp, rfl⟩
        cases put with
        | nil =>
          obtain ⟨rfl, rfl⟩ := List.cons.inj hl
          cases hput
          exact ⟨rfl, rfl⟩
        | cons q put =>
          obtain ⟨rfl, -⟩ := List.cons.inj hl
          simp only [insertAll, insert, hc, if_true] at hput
          cases hput
    | false =>
      have hnone := (Table.not_contains_iff _ _).mp hc
      simp only [insertAll, insert, hc, Bool.false_eq_true, if_false]
      rw [ih]
      constructor
      · rintro ⟨put, p, rest, rfl, hput, hp, rfl⟩
        refine ⟨(o, e) :: put, p, rest, rfl, ?_, hp, rfl⟩
        simp only [insertAll, insert, hc, Bool.false_eq_true, if_false]
        exact hput
      · rintro ⟨put, p, rest, hl, hput, hp, rfl⟩
        cases put with
        | nil =>
          obtain ⟨rfl, rfl⟩ := List.cons.inj hl
          cases hput
          obtain ⟨e', he'⟩ := hp
          rw [hnone] at he'
          cases he'
        | cons q put =>
          obtain ⟨rfl, rfl⟩ := List.cons.inj hl
          simp only [insertAll, insert, hc, Bool.false_eq_true, if_false] at hput
          exact ⟨put, p, rest, rfl, hput, hp, rfl⟩

/-- Taking out inputs that are there and inserting a list leaves the set as it was, should an
    outpoint be refused, exactly when none is, or what went in is what was taken out. -/
theorem insertAll_unchanged_iff {s : UtxoSet} {is : List TxIn} {l : List (OutPoint × UtxoEntry)}
    (hin : ∀ o ∈ is.map TxIn.previousOutput, ∃ e, s.entries[o]? = some e) :
    (∀ s' e, insertAll (s.removeInputs is) l = (s', .error e) → s' = s) ↔ Free (s.removeInputs is) l ∨ PutsBack s is l := by
  constructor
  · intro h
    rcases hrun : insertAll (s.removeInputs is) l with ⟨s', e | ⟨⟩⟩
    · obtain rfl := h s' e hrun
      obtain ⟨put, p, rest, hl, hput, hp, -⟩ := insertAll_error.mp hrun
      obtain ⟨hnd, hfresh, hmem, hother⟩ := insertAll_ok hput
      refine .inr ⟨put, p, rest, hl, hnd, fun q hq => ⟨hmem q hq, ?_⟩, fun o ho => ?_, hp⟩
      · -- it was free once the inputs were out, and is in the set
        have hq' := hfresh q hq
        rw [get_removeInputs] at hq'
        by_contra hni
        rw [if_neg hni, hmem q hq] at hq'
        cases hq'
      · by_contra hni
        obtain ⟨e', he'⟩ := hin o ho
        rw [hother o hni, get_removeInputs, if_pos ho] at he'
        cases he'
    · obtain ⟨hnd, hfresh, -⟩ := insertAll_ok hrun
      exact .inl ⟨hnd, hfresh⟩
  · rintro (⟨hnd, hfresh⟩ | ⟨put, p, rest, rfl, hnd, hput, hall, e₀, he₀⟩) s' e hrun
    · obtain ⟨s₁, h₁⟩ := insertAll_of_fresh hnd hfresh
      rw [h₁] at hrun
      cases hrun
    · obtain ⟨s₁, h₁⟩ := insertAll_of_fresh (s := s.removeInputs is) hnd fun q hq => by
        rw [get_removeInputs, if_pos (hput q hq).2]
      obtain ⟨-, -, hmem, hother⟩ := insertAll_ok h₁
      -- the set is back where it was when `p` is refused
      have hback : s₁ = s := by
        have hext : s₁.entries = s.entries := Table.ext fun o => by
          by_cases ho : o ∈ put.map (·.1)
          · obtain ⟨q, hq, rfl⟩ := List.mem_map.mp ho
            rw [hmem q hq, (hput q hq).1]
          · rw [hother o ho, get_removeInputs, if_neg fun hi => ho (hall o hi)]
        cases s₁; cases s; cases hext; rfl
      rw [hback] at h₁
      have hstop : insertAll (s.removeInputs is) (put ++ p :: rest) = (s, .error (.duplicateOutPoint p.1)) :=
        insertAll_error.mpr ⟨put, p, rest, rfl, h₁, ⟨e₀, he₀⟩, rfl⟩
      rw [hstop] at hrun
      cases hrun
      rfl

theorem Covered.unspent {s : UtxoSet} {tx : Transaction} (h : Covered s tx) :
    ∀ o ∈ tx.inputs.map TxIn.previousOutput, ∃ e, s.entries[o]? = some e := by
  intro o ho
  obtain ⟨i, hi, rfl⟩ := List.mem_map.mp ho
  obtain ⟨totalIn, totalOut, hin, -⟩ := h.funded
  obtain ⟨spent, hspent, -⟩ := sumInputs_ok hin
  have hm : s.entries[i.previousOutput]? ∈ spent.map some := by
    rw [← hspent]
    exact List.mem_map.mpr ⟨i, hi, rfl⟩
  obtain ⟨e, -, he⟩ := List.mem_map.mp hm
  exact ⟨e, he.symm⟩

/-- For every set, transaction and height: when a single transaction that fails has left the
    set as it was. -/
theorem unchanged_on_error_iff (H : Hasher) (s : UtxoSet) (tx : Transaction) (height : UInt64) :
    ((∀ s' e, applyTransaction H s tx height = (s', .error e) → s' = s) ↔
      (Covered s tx → Free (s.removeInputs tx.inputs) (created H height false tx) ∨
        PutsBack s tx.inputs (created H height false tx))) ∧
    ((∀ s' e, applyCoinbase H s tx height = (s', .error e) → s' = s) ↔
      (Payable tx → Free s (created H height true tx) ∨ PutsBack s [] (created H height true tx))) := by
  constructor
  · by_cases hc : Covered s tx
    · obtain ⟨fee, hap⟩ := applyTransaction_of_covered (H := H) hc height
      rw [forall_prop_of_true hc, ← insertAll_unchanged_iff hc.unspent, hap]
      rcases insertAll (s.removeInputs tx.inputs) (created H height false tx) with ⟨s', e | ⟨⟩⟩ <;> simp
    · obtain ⟨e, he⟩ := applyTransaction_of_not_covered (H := H) hc height
      refine iff_of_true (fun s' e' h => ?_) fun h => absurd h hc
      rw [he] at h
      cases h
      rfl
  · by_cases hp : Payable tx
    · rw [forall_prop_of_true hp, applyCoinbase_of_payable hp]
      exact @insertAll_unchanged_iff s [] _ (by simp)
    · obtain ⟨e, he⟩ := applyCoinbase_of_not_payable (H := H) hp s height
      refine iff_of_true (fun s' e' h => ?_) fun h => absurd h hp
      rw [he] at h
      cases h
      rfl

/-- A payment of 1200 from output 0 of the null transaction. -/
def samplePayment : Transaction :=
  ⟨transactionVersion1, [TxIn.new ⟨Hash256.zero, 0⟩ []], [⟨600, [0x51]⟩, ⟨600, [0x52]⟩], 0⟩

/-- A set with what it spends, and with its second output already. -/
def paidAlready (H : Hasher) : UtxoSet :=
  ⟨((∅ : Table OutPoint UtxoEntry).insert ⟨Hash256.zero, 0⟩ ⟨⟨1200, [0x51]⟩, 0, false⟩).insert
    ⟨samplePayment.txid H, 1⟩ ⟨⟨600, [0x52]⟩, 0, false⟩⟩

set_option maxRecDepth 10000 in
/-- Its second output is refused when the input is gone and the first output in; as a coinbase
    it leaves the first output behind. -/
theorem changed_on_error :
    let s := paidAlready Blake3.digest
    let refused : UtxoError := .duplicateOutPoint ⟨samplePayment.txid Blake3.digest, 1⟩
    ((applyTransaction Blake3.digest s samplePayment 1).2 = .error refused ∧
      (applyTransaction Blake3.digest s samplePayment 1).1 ≠ s) ∧
    (applyCoinbase Blake3.digest s samplePayment 1).2 = .error refused ∧
      (applyCoinbase Blake3.digest s samplePayment 1).1 ≠ s := by
  decide +kernel

end UtxoSet

end Scytale
