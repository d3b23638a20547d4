/-
  Scytale.Node.VerifierHeight — the height a block's scripts run at
  (apps/scytale-node/src/node.rs, NodeBlockVerifier and validate_block_transactions).

  `submit_external_block` runs the scripts of an extension at its place in the chain,
  `NodeBlockVerifier`, inside the chain tree, at the number in the first eight bytes of the
  coinbase's authorization. Nobody compares the two.
  - `nodeEngines`: the engines of the node, the script machine and the contract adapter.
  - `validateTransactions_height`: what is checked of a block's spends does not depend on
    the height but for the operands of the height locks.
  - `scripts_pass_later`: what passes at a height passes at every later one.
  - `verifier_height_iff`: the two verdicts are one exactly when, for a block whose spends
    pass every other check, all its locks are met at both heights or at neither.
-/
import Scytale.Script.HeightLocks
import Scytale.Core.VmAdapter
import Scytale.Node.Submit
import Scytale.Blake3

namespace Scytale

open Lib

/-- The script machine with its default budget, and the contract adapter. -/
def nodeEngines (H : Hasher) (verifyStrict : VerifyStrict) (vm : Vm) : Engines where
  execute unlocking locking sighash height :=
    (ScriptEngine.new.execute H verifyStrict ⟨sighash, height⟩ unlocking locking).mapError ScriptError.text
  verifyTransactionEutxo tx blockTime utxos gasLimit :=
    (verifyTransactionEutxo H vm tx blockTime utxos gasLimit).mapError EutxoValidationError.text

section
variable (H : Hasher) (verifyStrict : VerifyStrict)

/-- The operands of the height locks the inputs' scripts read, from index `idx` on. -/
def inputLocks (tx : Transaction) (utxos : UtxoSet) : Nat → List TxIn → List Nat
  | _, [] => []
  | idx, input :: inputs =>
    match utxos.entries[input.previousOutput]? with
    | none => []
    | some utxo =>
      (if isContractLock utxo.output.lockingCondition then []
        else ScriptEngine.new.executeLocks H verifyStrict (tx.computeSighash H idx utxo.output.lockingCondition)
          input.authorization utxo.output.lockingCondition) ++ inputLocks tx utxos (idx + 1) inputs

/-- The operands the spends read, one after the other. -/
def spendLocks : UtxoSet → List Transaction → List Nat
  | _, [] => []
  | staged, tx :: txs =>
    let spent := if tx.isCoinbase then staged else staged.removeInputs tx.inputs
    (if tx.isCoinbase then [] else inputLocks H verifyStrict tx staged 0 tx.inputs) ++
      spendLocks (UtxoSet.insertAll spent (UtxoSet.created H lastHeight tx.isCoinbase tx)).1 txs

end

variable {H : Hasher} {verifyStrict : VerifyStrict} {vm : Vm}

/-! ## One spend -/

theorem mapError_eq_ok {ε ε' α : Type} {f : ε → ε'} {x : Except ε α} {a : α} : x.mapError f = .ok a ↔ x = .ok a := by
  cases x <;> simp [Except.mapError]

theorem nodeEngines_execute {sighash : Hash256} {height : UInt64} (unlocking locking : Bytes) (valid : Bool) :
    (nodeEngines H verifyStrict vm).execute unlocking locking sighash height = .ok valid ↔
      (nodeEngines H verifyStrict vm).execute unlocking locking sighash lastHeight = .ok valid ∧
        ∀ lock ∈ ScriptEngine.new.executeLocks H verifyStrict sighash unlocking locking, lock ≤ height.toNat := by
  simp only [nodeEngines, mapError_eq_ok]
  exact ScriptEngine.execute_height unlocking locking valid

theorem nodeEngines_eutxo {s t : UtxoSet} (h : UtxoSet.SameOutputs s t) (tx : Transaction) (blockTime gasLimit : UInt64) :
    (nodeEngines H verifyStrict vm).verifyTransactionEutxo tx blockTime s gasLimit =
      (nodeEngines H verifyStrict vm).verifyTransactionEutxo tx blockTime t gasLimit := by
  simp only [nodeEngines, verifyTransactionEutxo_sameOutputs H vm h]

/-- One input's script, and the inputs behind it. -/
theorem verifyInputScripts_cons {eng : Engines} {tx : Transaction} {height : UInt64} {utxos : UtxoSet} {idx : Nat}
    {input : TxIn} {inputs : List TxIn} : verifyInputScripts H eng tx height utxos idx (input :: inputs) = .ok () ↔
      ∃ utxo, utxos.entries[input.previousOutput]? = some utxo ∧
        (isContractLock utxo.output.lockingCondition = true ∨ eng.execute input.authorization utxo.output.lockingCondition
          (tx.computeSighash H idx utxo.output.lockingCondition) height = .ok true) ∧
        verifyInputScripts H eng tx height utxos (idx + 1) inputs = .ok () := by
  rw [verifyInputScripts]
  cases utxos.entries[input.previousOutput]? with
  | none => simp
  | some utxo =>
    by_cases hlock : isContractLock utxo.output.lockingCondition = true
    · simp [hlock]
    · simp only [hlock, Bool.false_eq_true, if_false, Option.some.injEq, exists_eq_left', false_or]
      split <;> simp_all

theorem verifyInputScripts_height {s t : UtxoSet} (h : UtxoSet.SameOutputs s t) (tx : Transaction) (height : UInt64)
    (inputs : List TxIn) : ∀ idx : Nat,
      verifyInputScripts H (nodeEngines H verifyStrict vm) tx height s idx inputs = .ok () ↔
        verifyInputScripts H (nodeEngines H verifyStrict vm) tx lastHeight t idx inputs = .ok () ∧
          ∀ lock ∈ inputLocks H verifyStrict tx t idx inputs, lock ≤ height.toNat := by
  induction inputs with
  | nil => intro idx; simp [verifyInputScripts, inputLocks]
  | cons input inputs ih =>
    intro idx
    rw [verifyInputScripts_cons, verifyInputScripts_cons, inputLocks, ih]
    rcases h.lookup input.previousOutput with ⟨hs, ht⟩ | ⟨e, e', hs, ht, hout⟩
    · simp [hs, ht]
    · simp only [hs, ht, hout, Option.some.injEq, exists_eq_left', List.mem_append, or_imp, forall_and]
      by_cases hlock : isContractLock e'.output.lockingCondition = true
      · simp [hlock]
      · simp only [hlock, Bool.false_eq_true, if_false, false_or]
        rw [nodeEngines_execute]
        tauto

theorem verifySpend_height {s t : UtxoSet} (h : UtxoSet.SameOutputs s t) {tx : Transaction} (hcb : tx.isCoinbase = false)
    (height blockTime gas gas' : UInt64) :
    verifySpend H (nodeEngines H verifyStrict vm) height blockTime s gas tx = .ok gas' ↔
      verifySpend H (nodeEngines H verifyStrict vm) lastHeight blockTime t gas tx = .ok gas' ∧
        ∀ lock ∈ inputLocks H verifyStrict tx t 0 tx.inputs, lock ≤ height.toNat := by
  have hsplit : ∀ (height : UInt64) (s : UtxoSet),
      verifySpend H (nodeEngines H verifyStrict vm) height blockTime s gas tx = .ok gas' ↔
        verifyInputScripts H (nodeEngines H verifyStrict vm) tx height s 0 tx.inputs = .ok () ∧
          ∃ txGas, (nodeEngines H verifyStrict vm).verifyTransactionEutxo tx blockTime s maxTxGas = .ok txGas ∧
            ¬UInt64.ofNat (min (gas.toNat + txGas.toNat) (2 ^ 64 - 1)) > maxBlockGas ∧
            UInt64.ofNat (min (gas.toNat + txGas.toNat) (2 ^ 64 - 1)) = gas' := by
    intro height s
    simp only [verifySpend, verifyTransactionScripts, hcb, Bool.false_eq_true, if_false]
    cases verifyInputScripts H (nodeEngines H verifyStrict vm) tx height s 0 tx.inputs with
    | error e => simp
    | ok u =>
      cases (nodeEngines H verifyStrict vm).verifyTransactionEutxo tx blockTime s maxTxGas with
      | error text => simp
      | ok txGas =>
        simp only [true_and, Except.ok.injEq, exists_eq_left']
        generalize UInt64.ofNat (min (gas.toNat + txGas.toNat) (2 ^ 64 - 1)) = consumed
        by_cases hover : consumed > maxBlockGas <;> simp [hover]
  rw [hsplit, hsplit, verifyInputScripts_height h, nodeEngines_eutxo h]
  tauto

/-! ## The spends of a block -/

/-- A transaction that is no coinbase is checked and its inputs removed; then, in any case,
    its outputs go in. -/
theorem validateTransactions_cons {eng : Engines} {height blockTime : UInt64} {s s' : UtxoSet} {gas : UInt64}
    {tx : Transaction} {txs : List Transaction} :
    validateTransactions H eng height blockTime s gas (tx :: txs) = .ok s' ↔
      ∃ gas', (if tx.isCoinbase then gas' = gas else verifySpend H eng height blockTime s gas tx = .ok gas') ∧
        tx.encodable = true ∧ ∃ s₁, UtxoSet.insertAll (if tx.isCoinbase then s else s.removeInputs tx.inputs)
          (UtxoSet.created H height tx.isCoinbase tx) = (s₁, .ok ()) ∧
          validateTransactions H eng height blockTime s₁ gas' txs = .ok s' := by
  rw [validateTransactions]
  cases hcb : tx.isCoinbase with
  | true =>
    cases henc : tx.encodable with
    | false => simp
    | true =>
      simp only [if_true, Bool.not_true, Bool.false_eq_true, if_false, true_and, exists_eq_left]
      rcases UtxoSet.insertAll s (UtxoSet.created H height true tx) with ⟨s₁, e | u⟩ <;> simp
  | false =>
    simp only [Bool.false_eq_true, if_false]
    cases verifySpend H eng height blockTime s gas tx with
    | error e => simp
    | ok gas' =>
      cases henc : tx.encodable with
      | false => simp
      | true =>
        simp only [Except.ok.injEq, exists_eq_left', Bool.not_true, Bool.false_eq_true, if_false, true_and]
        rcases UtxoSet.insertAll (s.removeInputs tx.inputs) (UtxoSet.created H height false tx) with ⟨s₁, e | u⟩ <;> simp

/-- The height decides about the operands of the height locks and about nothing else. -/
theorem validateTransactions_height (height blockTime : UInt64) (txs : List Transaction) : ∀ {s t : UtxoSet} (gas : UInt64),
    UtxoSet.SameOutputs s t →
      ((∃ s', validateTransactions H (nodeEngines H verifyStrict vm) height blockTime s gas txs = .ok s') ↔
        (∃ t', validateTransactions H (nodeEngines H verifyStrict vm) lastHeight blockTime t gas txs = .ok t') ∧
          ∀ lock ∈ spendLocks H verifyStrict t txs, lock ≤ height.toNat) := by
  induction txs with
  | nil => intro s t gas _; simp [validateTransactions, spendLocks]
  | cons tx txs ih =>
    intro s t gas h
    have hbase : UtxoSet.SameOutputs (if tx.isCoinbase then s else s.removeInputs tx.inputs)
        (if tx.isCoinbase then t else t.removeInputs tx.inputs) := by
      split
      · exact h
      · exact h.removeInputs tx.inputs
    obtain ⟨hsets, hres⟩ := UtxoSet.SameOutputs.insertAll
      (UtxoSet.SameOutputs.created H tx height lastHeight tx.isCoinbase) hbase
    have hspend : ∀ gas', (if tx.isCoinbase then gas' = gas else
          verifySpend H (nodeEngines H verifyStrict vm) height blockTime s gas tx = .ok gas') ↔
        (if tx.isCoinbase then gas' = gas else
          verifySpend H (nodeEngines H verifyStrict vm) lastHeight blockTime t gas tx = .ok gas') ∧
        ∀ lock ∈ (if tx.isCoinbase then [] else inputLocks H verifyStrict tx t 0 tx.inputs), lock ≤ height.toNat := by
      intro gas'
      cases hcb : tx.isCoinbase with
      | true => simp
      | false =>
        simp only [Bool.false_eq_true, if_false]
        exact verifySpend_height h hcb height blockTime gas gas'
    simp only [validateTransactions_cons, spendLocks, List.mem_append, or_imp, forall_and, hspend]
    generalize UtxoSet.insertAll (if tx.isCoinbase then s else s.removeInputs tx.inputs)
      (UtxoSet.created H height tx.isCoinbase tx) = r at hsets hres ⊢
    generalize UtxoSet.insertAll (if tx.isCoinbase then t else t.removeInputs tx.inputs)
      (UtxoSet.created H lastHeight tx.isCoinbase tx) = r' at hsets hres ⊢
    obtain ⟨s₁, v⟩ := r
    obtain ⟨t₁, v'⟩ := r'
    obtain rfl : v = v' := hres
    constructor
    · rintro ⟨s', gas', ⟨hgas, hlocks⟩, henc, s₂, hins, hrest⟩
      cases hins
      obtain ⟨⟨t', hlast⟩, hlater⟩ := (ih gas' hsets).mp ⟨s', hrest⟩
      exact ⟨⟨t', gas', hgas, henc, t₁, rfl, hlast⟩, hlocks, hlater⟩
    · rintro ⟨⟨t', gas', hgas, henc, t₂, hins, hlast⟩, hlocks, hlater⟩
      cases hins
      obtain ⟨s', hrest⟩ := (ih gas' hsets).mpr ⟨⟨t', hlast⟩, hlater⟩
      exact ⟨s', gas', ⟨hgas, hlocks⟩, henc, s₁, rfl, hrest⟩

/-! ## The two verdicts -/

/-- The block's spends pass every check but those of the height: at the last height every
    lock is met. -/
def PassesOtherwise (H : Hasher) (verifyStrict : VerifyStrict) (vm : Vm) (block : Block) (utxos : UtxoSet) : Prop :=
  ∃ staged, validateBlockTransactions H (nodeEngines H verifyStrict vm) block lastHeight block.header.timestamp utxos =
    .ok staged

/-- Every operand a height lock of the block reads is at most the height. -/
def LocksMet (H : Hasher) (verifyStrict : VerifyStrict) (block : Block) (utxos : UtxoSet) (height : UInt64) : Prop :=
  ∀ lock ∈ spendLocks H verifyStrict utxos block.transactions, lock ≤ height.toNat

theorem validateBlockTransactions_height (block : Block) (height : UInt64) (utxos : UtxoSet) :
    (∃ staged, validateBlockTransactions H (nodeEngines H verifyStrict vm) block height block.header.timestamp utxos =
      .ok staged) ↔ PassesOtherwise H verifyStrict vm block utxos ∧ LocksMet H verifyStrict block utxos height :=
  validateTransactions_height height _ _ 0 (UtxoSet.SameOutputs.refl utxos)

/-- For every block, every height of its place in the chain and every set: the verifier
    inside the chain tree and the check of the submission agree exactly when, if the block
    passes otherwise, its locks are met at both heights or at neither. -/
theorem verifier_height_iff (block : Block) (height : UInt64) (utxos : UtxoSet) :
    (nodeBlockVerifier H (nodeEngines H verifyStrict vm) block utxos = .ok () ↔
        ∃ staged, validateBlockTransactions H (nodeEngines H verifyStrict vm) block height block.header.timestamp utxos =
          .ok staged) ↔
      (PassesOtherwise H verifyStrict vm block utxos →
        (LocksMet H verifyStrict block utxos (nodeBlockHeight block) ↔ LocksMet H verifyStrict block utxos height)) := by
  have hverifier : nodeBlockVerifier H (nodeEngines H verifyStrict vm) block utxos = .ok () ↔
      ∃ staged, validateBlockTransactions H (nodeEngines H verifyStrict vm) block (nodeBlockHeight block)
        block.header.timestamp utxos = .ok staged := by
    unfold nodeBlockVerifier
    split <;> simp_all
  rw [hverifier, validateBlockTransactions_height, validateBlockTransactions_height]
  tauto

/-! ## Later heights -/

/-- The entries a transaction was judged by are those its inputs have in a set, but for where
    and when they were made. -/
def ResolvesTo (utxos : UtxoSet) (inputs : List TxIn) (es : List UtxoEntry) : Prop :=
  List.Forall₂ (fun i e => ∃ u, utxos.entries[i.previousOutput]? = some u ∧ u.output = e.output) inputs es

/-- Inputs authorized at a height have scripts that pass at every later one. -/
theorem verifyInputScripts_of_authorized {height height' : UInt64} (hle : height ≤ height') {utxos : UtxoSet}
    (tx : Transaction) {inputs : List TxIn} {es : List UtxoEntry} (hes : ResolvesTo utxos inputs es) : ∀ idx : Nat,
      verifyAuthorizations H tx (consensusScriptVerifier (nodeEngines H verifyStrict vm) height) idx (inputs.zip es) = .ok () →
        verifyInputScripts H (nodeEngines H verifyStrict vm) tx height' utxos idx inputs = .ok () := by
  induction hes with
  | nil => intro idx _; rfl
  | @cons input e inputs es hentry _ ih =>
    intro idx h
    obtain ⟨u, hu, hout⟩ := hentry
    rw [List.zip_cons_cons, verifyAuthorizations] at h
    split at h
    · cases h
    · split at h
      · cases h
      · rename_i hverdict
        refine verifyInputScripts_cons.mpr ⟨u, hu, ?_, ih (idx + 1) h⟩
        rw [hout]
        unfold consensusScriptVerifier at hverdict
        split at hverdict
        · rename_i hlock
          exact .inl hlock
        · split at hverdict
          · cases hverdict
          · cases hverdict
          · rename_i hexecute
            simp only [nodeEngines, mapError_eq_ok] at hexecute ⊢
            exact .inr (ScriptEngine.execute_later hle hexecute)

/-- For every engine and pair of scripts: what passes at a height passes at every later one.
    So the scripts of a transaction that was authorized at a height pass at every later one,
    in every set where its inputs have the same outputs. -/
theorem scripts_pass_later {height height' : UInt64} (hle : height ≤ height') :
    (∀ (eng : ScriptEngine) (sighash : Hash256) (unlocking locking : Bytes),
        eng.execute H verifyStrict ⟨sighash, height⟩ unlocking locking = .ok true →
          eng.execute H verifyStrict ⟨sighash, height'⟩ unlocking locking = .ok true) ∧
      ∀ (tx : Transaction) (es : List UtxoEntry) (utxos : UtxoSet), ResolvesTo utxos tx.inputs es →
        verifyTransactionAuthorization H tx es (consensusScriptVerifier (nodeEngines H verifyStrict vm) height) = .ok () →
          verifyTransactionScripts H (nodeEngines H verifyStrict vm) tx height' utxos = .ok () := by
  refine ⟨fun eng sighash unlocking locking h => ScriptEngine.execute_later hle h, fun tx es utxos hes h => ?_⟩
  unfold verifyTransactionAuthorization at h
  split at h
  · cases h
  · unfold verifyTransactionScripts
    split
    · rfl
    · exact verifyInputScripts_of_authorized hle tx hes 0 h

/-- A lock of height 100 met at height 100, and at height 120. -/
theorem scripts_pass_later_lock : ScriptEngine.new.execute Blake3.digest (fun _ _ _ => false) ⟨Hash256.zero, 120⟩ []
    [0x01, 100, 0xb1, 0x51] = .ok true :=
  (@scripts_pass_later Blake3.digest (fun _ _ _ => false) (fun _ _ _ _ _ => .error .compilationFailed) 100 120
    (by decide)).1 .new Hash256.zero [] [0x01, 100, 0xb1, 0x51] (by decide +kernel)

/-! ### A lock of height 100 spent at height 2 -/

/-- The first block's coinbase, paid to `100 OP_CHECKLOCKTIMEVERIFY 1`. -/
def lockedCoinbase : Transaction := Transaction.newCoinbase 1 [⟨1000, [0x01, 100, 0xb1, 0x51]⟩]

/-- The set after that block. -/
def lockedOutputs (H : Hasher) : UtxoSet := (UtxoSet.applyCoinbase H UtxoSet.new lockedCoinbase 1).1

/-- The next block spends it; its coinbase claims height 100. -/
def earlySpend (H : Hasher) : Block :=
  ⟨⟨1, Hash256.zero, Hash256.zero, Hash256.zero, 120, 0x207fffff, 0⟩,
    [Transaction.newCoinbase 100 [⟨600, [0x51]⟩],
      ⟨transactionVersion1, [TxIn.new ⟨lockedCoinbase.txid H, 0⟩ []], [⟨1000, [0x51]⟩], 0⟩]⟩

set_option maxRecDepth 10000 in
theorem early_spend_disagrees :
    let eng := nodeEngines Blake3.digest (fun _ _ _ => false) fun _ _ _ _ _ => .error .compilationFailed
    nodeBlockVerifier Blake3.digest eng (earlySpend Blake3.digest) (lockedOutputs Blake3.digest) = .ok () ∧
      validateBlockTransactions Blake3.digest eng (earlySpend Blake3.digest) 2 120 (lockedOutputs Blake3.digest) =
        .error (.invalidScript "OP_CHECKLOCKTIMEVERIFY failed: required lock height 100 > current height 2") := by
  decide +kernel

end Scytale
