/-
  Scytale.Node.PendingBalance — a passbook's balance and what is pending
  (apps/scytale-node/src/passbook.rs, crates/scytale-core/src/utxo.rs).

  The pending delta adds every owned output of a pending transaction, and takes off an input
  only if what it spends is confirmed.
  - `pendingDelta_ok`: the delta is what the pending transactions create for the owner less what
    their inputs find in the confirmed set.
  - `applyAll_weight`: over a run of transactions inputs leave, each found in its turn, and
    outputs come in.
  - `pending_balance`: so the balance and the delta are the balance after the run, what pending
    transactions spend of each other, and what they put into data carriers.
-/
import Scytale.Core.Transition
import Scytale.Node.Passbook

namespace Scytale

open Lib

namespace Passbook

variable {H : Hasher} {p : Passbook}

/-! ## The delta -/

section
variable (H) (p)

/-- What the pending transactions create for the owner. -/
def pendingInflow (txs : List Transaction) : Nat := (txs.map fun tx => (tx.outputs.map (p.nativeWeight H)).sum).sum

/-- What of the owner's their inputs find in a set. -/
def pendingOutflow (utxos : UtxoSet) (txs : List Transaction) : Nat :=
  (txs.map fun tx => utxos.spentWeight (p.nativeWeight H) tx.inputs).sum

end

theorem filterMap_spentWeight (w : TxOut → Nat) (utxos : UtxoSet) (inputs : List TxIn) :
    ((inputs.filterMap fun input => (utxos.entries[input.previousOutput]?).map (·.output)).map w).sum =
      utxos.spentWeight w inputs := by
  induction inputs with
  | nil => rfl
  | cons input inputs ih =>
    rw [UtxoSet.spentWeight] at ih ⊢
    cases h : utxos.entries[input.previousOutput]? with
    | none => simp [h, ih]
    | some e => simp [h, ih]

theorem pendingFlows_ok {utxos : UtxoSet} {pending : List MempoolEntry} : ∀ {inflow outflow inflow' outflow' : UInt64},
    p.pendingFlows H utxos inflow outflow pending = .ok (inflow', outflow') →
      inflow'.toNat = inflow.toNat + p.pendingInflow H (pending.map (·.transaction)) ∧
      outflow'.toNat = outflow.toNat + p.pendingOutflow H utxos (pending.map (·.transaction)) := by
  induction pending with
  | nil =>
    intro inflow outflow inflow' outflow' h
    cases h
    exact ⟨rfl, rfl⟩
  | cons entry pending ih =>
    intro inflow outflow inflow' outflow' h
    rw [pendingFlows] at h
    split at h
    · cases h
    · rename_i inflow₁ hin
      simp only at h
      split at h
      · cases h
      · rename_i outflow₁ hout
        obtain ⟨hrestIn, hrestOut⟩ := ih h
        have hin := addNatives_ok_iff.mp hin
        have hout := addNatives_ok_iff.mp hout
        rw [filterMap_spentWeight] at hout
        simp only [pendingInflow, pendingOutflow, List.map_cons, List.sum_cons] at *
        omega

theorem pendingDelta_ok {utxos : UtxoSet} {pending : List MempoolEntry} {delta : Int}
    (h : p.pendingDelta H utxos pending = .ok delta) :
    delta = p.pendingInflow H (pending.map (·.transaction)) - p.pendingOutflow H utxos (pending.map (·.transaction)) := by
  unfold pendingDelta at h
  split at h
  · cases h
  · rename_i inflow outflow hflows
    obtain ⟨hin, hout⟩ := pendingFlows_ok hflows
    have h0 : (0 : UInt64).toNat = 0 := rfl
    simp only at h
    split at h
    · cases h
    · cases h
      omega

end Passbook

/-! ## Applying the pending transactions -/

namespace UtxoSet

variable {H : Hasher} {height : UInt64}

/-- The set after the transactions, if each applies in its turn. -/
def applyAll (H : Hasher) (height : UInt64) : UtxoSet → List Transaction → Option UtxoSet
  | s, [] => some s
  | s, tx :: txs =>
    match applyTransaction H s tx height with
    | (_, .error _) => none
    | (s', .ok _) => applyAll H height s' txs

/-- The weight of what the inputs of the transactions find, each in its turn. -/
def spentAlong (H : Hasher) (height : UInt64) (w : TxOut → Nat) : UtxoSet → List Transaction → Nat
  | _, [] => 0
  | s, tx :: txs => s.spentWeight w tx.inputs + spentAlong H height w (applyTransaction H s tx height).1 txs

/-- The weight of what the transactions put into data carriers. -/
def carriedBy (w : TxOut → Nat) (txs : List Transaction) : Nat := (txs.map fun tx => carrierWeight w tx.outputs).sum

theorem applyAll_cons {s s' : UtxoSet} {tx : Transaction} {txs : List Transaction}
    (h : applyAll H height s (tx :: txs) = some s') :
    ∃ s₁ fee, applyTransaction H s tx height = (s₁, .ok fee) ∧ applyAll H height s₁ txs = some s' := by
  rw [applyAll] at h
  rcases hap : applyTransaction H s tx height with ⟨s₁, e | fee⟩
  · rw [hap] at h
    cases h
  · rw [hap] at h
    exact ⟨s₁, fee, rfl, h⟩

theorem applyAll_weight (w : TxOut → Nat) {txs : List Transaction} : ∀ {s s' : UtxoSet},
    applyAll H height s txs = some s' → s'.weight w + spentAlong H height w s txs + carriedBy w txs =
      s.weight w + (txs.map fun tx => (tx.outputs.map w).sum).sum := by
  induction txs with
  | nil =>
    intro s s' h
    cases h
    rfl
  | cons tx txs ih =>
    intro s s' h
    obtain ⟨s₁, fee, hap, hrest⟩ := applyAll_cons h
    have hfirst := applyTransaction_weight w hap
    have hrest := ih hrest
    simp only [spentAlong, carriedBy, hap, List.map_cons, List.sum_cons] at *
    omega

/-- No transaction of a list spends what one of them creates. -/
def Unchained (H : Hasher) (txs : List Transaction) : Prop :=
  ∀ tx ∈ txs, ∀ i ∈ tx.inputs, ∀ tx' ∈ txs, i.previousOutput ∉ tx'.outpoints H

/-- Inputs that find nothing of the run find what was there before. -/
theorem spentAlong_of_unchained (w : TxOut → Nat) (created : List OutPoint) {s₀ : UtxoSet} {txs : List Transaction} :
    ∀ {s s' : UtxoSet}, applyAll H height s txs = some s' → (∀ tx ∈ txs, ∀ i ∈ tx.inputs, i.previousOutput ∉ created) →
      (∀ tx ∈ txs, tx.outpoints H ⊆ created) →
      (∀ (o : OutPoint) (e : UtxoEntry), o ∉ created → s.entries[o]? = some e → s₀.entries[o]? = some e) →
      spentAlong H height w s txs = (txs.map fun tx => s₀.spentWeight w tx.inputs).sum := by
  induction txs with
  | nil => exact fun _ _ _ _ => rfl
  | cons tx txs ih =>
    intro s s' h hfree hcreated hold
    obtain ⟨s₁, fee, hap, hrest⟩ := applyAll_cons h
    have hfirst : s.spentWeight w tx.inputs = s₀.spentWeight w tx.inputs := by
      refine congrArg List.sum (List.map_congr_left fun i hi => ?_)
      obtain ⟨e, he⟩ := applyTransaction_unspent hap i.previousOutput (List.mem_map_of_mem hi)
      rw [he, hold _ e (hfree tx List.mem_cons_self i hi) he]
    have hold₁ : ∀ (o : OutPoint) (e : UtxoEntry), o ∉ created → s₁.entries[o]? = some e → s₀.entries[o]? = some e := by
      intro o e ho he
      have hother : o ∉ (UtxoSet.created H height false tx).map (·.1) := by
        rw [created_keys]
        exact fun hm => ho (hcreated tx List.mem_cons_self hm)
      rw [insertAll_other (applyTransaction_ok hap).2.1 hother, get_removeInputs] at he
      split at he
      · cases he
      · exact hold o e ho he
    have hlater := ih hrest (fun t ht => hfree t (List.mem_cons_of_mem _ ht))
      (fun t ht => hcreated t (List.mem_cons_of_mem _ ht)) hold₁
    rw [spentAlong, List.map_cons, List.sum_cons, hap, hfirst, hlater]

end UtxoSet

namespace Passbook

variable {H : Hasher} {p : Passbook}

/-- For every set and every list of pending transactions that applies to it in some order,
    whenever the three sums go through: the balance and the delta exceed the balance afterwards
    by what the inputs find in their turn beyond what they find confirmed, and by what goes into
    data carriers. Where no pending transaction spends an output of another, and none puts
    anything of the owner's into a data carrier, they are the balance afterwards. -/
theorem pending_balance {utxos utxos' : UtxoSet} {visit : utxos.Visit} {visit' : utxos'.Visit}
    {pending : List MempoolEntry} {order : List Transaction} {height confirmed after : UInt64} {delta : Int}
    (hconfirmed : p.sumNativeOwned H visit = .ok confirmed) (hdelta : p.pendingDelta H utxos pending = .ok delta)
    (horder : order.Perm (pending.map (·.transaction))) (hrun : UtxoSet.applyAll H height utxos order = some utxos')
    (hafter : p.sumNativeOwned H visit' = .ok after) :
    let w := p.nativeWeight H
    let chained : Int := UtxoSet.spentAlong H height w utxos order - p.pendingOutflow H utxos order
    (confirmed.toNat : Int) + delta = after.toNat + chained + UtxoSet.carriedBy w order ∧
      ((confirmed.toNat : Int) + delta = after.toNat ↔ chained + UtxoSet.carriedBy w order = 0) ∧
      (UtxoSet.Unchained H order → UtxoSet.carriedBy w order = 0 → (confirmed.toNat : Int) + delta = after.toNat) := by
  intro w chained
  have hbefore : confirmed.toNat = utxos.weight w := sumNativeOwned_ok_iff.mp hconfirmed
  have hlater : after.toNat = utxos'.weight w := sumNativeOwned_ok_iff.mp hafter
  have hflows := pendingDelta_ok hdelta
  have hin : p.pendingInflow H (pending.map (·.transaction)) = p.pendingInflow H order := ((horder.map _).sum_eq).symm
  have hout : p.pendingOutflow H utxos (pending.map (·.transaction)) = p.pendingOutflow H utxos order :=
    ((horder.map _).sum_eq).symm
  have hweight : utxos'.weight w + UtxoSet.spentAlong H height w utxos order + UtxoSet.carriedBy w order =
    utxos.weight w + p.pendingInflow H order := UtxoSet.applyAll_weight w hrun
  have hsum : (confirmed.toNat : Int) + delta = after.toNat + chained + UtxoSet.carriedBy w order := by
    show (confirmed.toNat : Int) + delta = after.toNat + ((UtxoSet.spentAlong H height w utxos order : Int) -
      p.pendingOutflow H utxos order) + UtxoSet.carriedBy w order
    rw [hin, hout] at hflows
    omega
  refine ⟨hsum, by omega, fun hfree hcarried => ?_⟩
  have hspent : UtxoSet.spentAlong H height w utxos order = p.pendingOutflow H utxos order :=
    UtxoSet.spentAlong_of_unchained w (order.flatMap (Transaction.outpoints H)) hrun
      (fun tx htx i hi hm => by
        obtain ⟨tx', htx', hmem⟩ := List.mem_flatMap.mp hm
        exact hfree tx htx i hi tx' htx' hmem)
      (fun tx htx o ho => List.mem_flatMap.mpr ⟨tx, htx, ho⟩) (fun _ _ _ he => he)
  have hzero : chained = 0 := by
    show (UtxoSet.spentAlong H height w utxos order : Int) - p.pendingOutflow H utxos order = 0
    rw [hspent, Int.sub_self]
  omega

/-! ### One owner, paying out and paying on -/

/-- Somebody's locking condition, and somebody else's. -/
def ownLock : Bytes := [1, 1, 1]

def otherLock : Bytes := [2, 2, 2]

def fundOutpoint : OutPoint := ⟨⟨List.replicate 32 7, rfl⟩, 0⟩

/-- One output of a million quanta. -/
def fundedUtxos : UtxoSet := ⟨(∅ : Table OutPoint UtxoEntry).insert fundOutpoint ⟨⟨1000000, ownLock⟩, 1, false⟩⟩

/-- It pays 400000 out and keeps the rest. -/
def payOut : Transaction := ⟨1, [TxIn.new fundOutpoint []], [⟨600000, ownLock⟩, ⟨400000, otherLock⟩], 0⟩

/-- It pays the rest out as well. -/
def payOn : Transaction := ⟨1, [TxIn.new ⟨payOut.txid Blake3.digest, 0⟩ []], [⟨600000, otherLock⟩], 0⟩

def ownBook : Passbook := Passbook.new Blake3.digest [ownLock]

def pendingEntry (tx : Transaction) : MempoolEntry := MempoolEntry.new Blake3.digest tx 0 100

/-- What the book says of a set after a run, if that applies. -/
def balanceAfter (txs : List Transaction) : Option (Except PassbookError UInt64) :=
  (UtxoSet.applyAll Blake3.digest 2 fundedUtxos txs).map fun utxos => ownBook.sumNativeOwned Blake3.digest utxos.visit

theorem balanceAfter_eq {txs : List Transaction} {after : UInt64} (h : balanceAfter txs = some (.ok after)) :
    ∃ utxos', UtxoSet.applyAll Blake3.digest 2 fundedUtxos txs = some utxos' ∧
      ownBook.sumNativeOwned Blake3.digest utxos'.visit = .ok after := by
  obtain ⟨utxos', hrun, hafter⟩ := Option.map_eq_some_iff.mp h
  exact ⟨utxos', hrun, hafter⟩

theorem ownBook_funded : ownBook.sumNativeOwned Blake3.digest fundedUtxos.visit = .ok 1000000 := by decide +kernel

set_option maxRecDepth 10000 in
/-- 1000000 less 400000 is what stays. -/
theorem pending_balance_paid : ∃ utxos' delta, UtxoSet.applyAll Blake3.digest 2 fundedUtxos [payOut] = some utxos' ∧
    ownBook.pendingDelta Blake3.digest fundedUtxos [pendingEntry payOut] = .ok delta ∧
    ownBook.sumNativeOwned Blake3.digest utxos'.visit = .ok 600000 ∧
    ((1000000 : UInt64).toNat : Int) + delta = (600000 : UInt64).toNat := by
  have hdelta : ownBook.pendingDelta Blake3.digest fundedUtxos [pendingEntry payOut] = .ok (-400000) := by decide +kernel
  obtain ⟨utxos', hrun, hafter⟩ := balanceAfter_eq (show balanceAfter [payOut] = some (.ok 600000) by decide +kernel)
  refine ⟨utxos', _, hrun, hdelta, hafter, ?_⟩
  refine (pending_balance ownBook_funded hdelta (List.Perm.refl _) hrun hafter).2.1.mpr ?_
  decide +kernel

set_option maxRecDepth 10000 in
/-- Paid on, the 600000 are counted with what the first transaction brings, and taken off
    nowhere. -/
theorem chained_spend_overstated : ∃ utxos' confirmed delta after,
    UtxoSet.applyAll Blake3.digest 2 fundedUtxos [payOut, payOn] = some utxos' ∧
    ownBook.sumNativeOwned Blake3.digest fundedUtxos.visit = .ok confirmed ∧
    ownBook.pendingDelta Blake3.digest fundedUtxos [pendingEntry payOut, pendingEntry payOn] = .ok delta ∧
    ownBook.sumNativeOwned Blake3.digest utxos'.visit = .ok after ∧ (confirmed.toNat : Int) + delta ≠ after.toNat := by
  have hdelta : ownBook.pendingDelta Blake3.digest fundedUtxos [pendingEntry payOut, pendingEntry payOn] =
    .ok (-400000) := by decide +kernel
  obtain ⟨utxos', hrun, hafter⟩ := balanceAfter_eq (show balanceAfter [payOut, payOn] = some (.ok 0) by decide +kernel)
  exact ⟨utxos', _, _, _, hrun, ownBook_funded, hdelta, hafter, by decide⟩

end Passbook

end Scytale
