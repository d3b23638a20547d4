/-
  Scytale.Node.Staging — the set a node works out for itself and the set of the block
  transition (apps/scytale-node/src/node.rs, validate_block_transactions).

  The node spends and creates inline next to the scripts, without the fees and without looking
  for an input used twice, and takes a coinbase wherever it stands.
  - `transitions_agree`: where both accept a block at one height they end in one set, so the
    root of the fast path is the root of the chain tree.
-/
import Scytale.Core.Transition
import Scytale.Node.VerifierHeight

namespace Scytale

open Lib

variable {H : Hasher} {eng : Engines} {height blockTime : UInt64}

/-- Behind the coinbase: what is checked besides does not change what is spent and created. -/
theorem validateTransactions_eq {txs : List Transaction} : ∀ {s s' staged : UtxoSet} {fees fees' gas : UInt64},
    UtxoSet.applyRest H height s fees txs = .ok (s', fees') →
      validateTransactions H eng height blockTime s gas txs = .ok staged → staged = s' := by
  induction txs with
  | nil =>
    intro s s' staged fees fees' gas ha hv
    cases ha
    cases hv
    rfl
  | cons tx txs ih =>
    intro s s' staged fees fees' gas ha hv
    obtain ⟨hcb, s₁, fee, fees₁, hap, -, hrest⟩ := UtxoSet.applyRest_cons ha
    obtain ⟨-, hins, -⟩ := UtxoSet.applyTransaction_ok hap
    obtain ⟨gas', -, -, s₂, hins', hrest'⟩ := validateTransactions_cons.mp hv
    simp only [hcb, Bool.false_eq_true, if_false] at hins'
    rw [hins] at hins'
    cases hins'
    exact ih hrest hrest'

/-- For every set, block and height: a block that both transitions accept leaves the same set
    by both. -/
theorem transitions_agree {block : Block} {s s' staged : UtxoSet} {fees : UInt64}
    (hv : validateBlockTransactions H eng block height blockTime s = .ok staged)
    (ha : UtxoSet.applyBlock H s block.transactions height = .ok (s', fees)) :
    staged = s' ∧ staged.computeUtxoRoot H = s'.computeUtxoRoot H := by
  have heq : staged = s' := by
    obtain ⟨cb, rest, s₁, htxs, hcb, hap, hrest⟩ := UtxoSet.applyBlock_ok ha
    obtain ⟨-, hins⟩ := UtxoSet.applyCoinbase_ok hap
    rw [validateBlockTransactions, htxs] at hv
    obtain ⟨gas', -, -, s₂, hins', hrest'⟩ := validateTransactions_cons.mp hv
    simp only [hcb, if_true] at hins'
    rw [hins] at hins'
    cases hins'
    exact validateTransactions_eq hrest hrest'
  exact ⟨heq, heq ▸ rfl⟩

set_option maxRecDepth 10000 in
/-- A block that spends its own coinbase. -/
theorem transitions_agree_spending :
    ∃ staged s' fees, validateBlockTransactions Blake3.digest acceptAll (spendingBlock Blake3.digest) 1 60 UtxoSet.new =
        .ok staged ∧
      UtxoSet.applyBlock Blake3.digest UtxoSet.new (spendingBlock Blake3.digest).transactions 1 = .ok (s', fees) ∧
      staged = s' := by
  have hv : validateBlockTransactions Blake3.digest acceptAll (spendingBlock Blake3.digest) 1 60 UtxoSet.new =
      .ok UtxoSet.new := by decide +kernel
  have ha : UtxoSet.applyBlock Blake3.digest UtxoSet.new (spendingBlock Blake3.digest).transactions 1 =
      .ok (UtxoSet.new, 2500000000) := by decide +kernel
  exact ⟨_, _, _, hv, ha, (transitions_agree hv ha).1⟩

end Scytale
