/-
  Scytale.Node.Validators — which engine judges an input
  (crates/scytale-core/src/authorization.rs, vm_adapter.rs, apps/scytale-node/src/node.rs).

  The script machine passes over an input whose lock is a contract behind the magic prefix;
  the contract adapter runs a contract with the prefix or without. The loops are given here
  with the inputs they hand to their engine, by index.
  - `mem_scriptInputs`, `mem_authorizedInputs`, `mem_contractInputs`: what decides where a
    loop comes to an input.
  - `judged_once_iff`: every input goes to exactly one engine if and only if none spends a
    contract without the prefix.
-/
import Scytale.Node.VerifierHeight

namespace Scytale

open Lib

section
variable (H : Hasher)

/-- The inputs `verify_transaction_scripts` hands to the script machine. -/
def scriptInputs (eng : Engines) (tx : Transaction) (height : UInt64) (utxos : UtxoSet) : Nat → List TxIn → List Nat
  | _, [] => []
  | idx, input :: inputs =>
    match utxos.entries[input.previousOutput]? with
    | none => []
    | some utxo =>
      if isContractLock utxo.output.lockingCondition then scriptInputs eng tx height utxos (idx + 1) inputs
      else idx :: match eng.execute input.authorization utxo.output.lockingCondition
          (tx.computeSighash H idx utxo.output.lockingCondition) height with
        | .ok true => scriptInputs eng tx height utxos (idx + 1) inputs
        | _ => []

/-- The inputs `ConsensusScriptVerifier` hands to it, with the entries they resolve to. -/
def authorizedInputs (eng : Engines) (tx : Transaction) (height : UInt64) : Nat → List (TxIn × UtxoEntry) → List Nat
  | _, [] => []
  | idx, (input, entry) :: rest =>
    if input.authorization.isEmpty then []
    else if isContractLock entry.output.lockingCondition then authorizedInputs eng tx height (idx + 1) rest
    else idx :: match eng.execute input.authorization entry.output.lockingCondition
        (tx.computeSighash H idx entry.output.lockingCondition) height with
      | .ok true => authorizedInputs eng tx height (idx + 1) rest
      | _ => []

/-- The inputs `verify_transaction_eutxo` has the VM validate. -/
def contractInputs (vm : Vm) (ctx : TxContext) (utxos : UtxoSet) (gasLimit : UInt64) : UInt64 → Nat → List TxIn → List Nat
  | _, _, [] => []
  | consumed, idx, input :: inputs =>
    match utxos.entries[input.previousOutput]? with
    | none => []
    | some utxo =>
      match OutputLock.fromLockingCondition utxo.output.lockingCondition with
      | some (.script scriptHash datum) =>
        idx :: match runContract H vm ctx gasLimit consumed scriptHash datum input with
          | .error _ => []
          | .ok consumed => contractInputs vm ctx utxos gasLimit consumed (idx + 1) inputs
      | _ => contractInputs vm ctx utxos gasLimit consumed (idx + 1) inputs

end

/-- The VM takes it for a contract. -/
def isScriptLock (lockingCondition : Bytes) : Bool :=
  match OutputLock.fromLockingCondition lockingCondition with
  | some (.script _ _) => true
  | _ => false

/-- A contract without the prefix. -/
def isBareContract (lockingCondition : Bytes) : Bool :=
  lockingCondition.take 4 != OutputLock.magicPrefix &&
    match OutputLock.deserialize lockingCondition with
    | some (.script _ _) => true
    | _ => false

theorem isContractLock_eq (lockingCondition : Bytes) : isContractLock lockingCondition =
    (isScriptLock lockingCondition && !isBareContract lockingCondition) := by
  unfold isContractLock isScriptLock isBareContract OutputLock.fromLockingCondition
  by_cases hprefix : lockingCondition.take 4 = OutputLock.magicPrefix
  · rw [if_pos hprefix, bne, beq_iff_eq.mpr hprefix]
    rcases OutputLock.deserialize (lockingCondition.drop 4) with _ | (pk | ⟨scriptHash, datum⟩) <;> rfl
  · rw [if_neg hprefix, bne, beq_eq_false_iff_ne.mpr hprefix]
    rcases OutputLock.deserialize lockingCondition with _ | (pk | ⟨scriptHash, datum⟩) <;> rfl

variable {H : Hasher} {eng : Engines} {vm : Vm} {tx : Transaction} {height gasLimit : UInt64} {utxos : UtxoSet} {ctx : TxContext}

/-! ## Where a loop comes to an input -/

theorem le_of_mem_scriptInputs (inputs : List TxIn) : ∀ {idx k : Nat},
    k ∈ scriptInputs H eng tx height utxos idx inputs → idx ≤ k := by
  induction inputs with
  | nil => intro idx k h; cases h
  | cons input inputs ih =>
    intro idx k h
    rw [scriptInputs] at h
    split at h
    · cases h
    · split at h
      · exact Nat.le_of_succ_le (ih h)
      · rcases List.mem_cons.mp h with rfl | h
        · exact Nat.le_refl _
        · split at h
          · exact Nat.le_of_succ_le (ih h)
          · cases h

theorem le_of_mem_authorizedInputs (pairs : List (TxIn × UtxoEntry)) : ∀ {idx k : Nat},
    k ∈ authorizedInputs H eng tx height idx pairs → idx ≤ k := by
  induction pairs with
  | nil => intro idx k h; cases h
  | cons pair pairs ih =>
    intro idx k h
    obtain ⟨input, entry⟩ := pair
    rw [authorizedInputs] at h
    split at h
    · cases h
    · split at h
      · exact Nat.le_of_succ_le (ih h)
      · rcases List.mem_cons.mp h with rfl | h
        · exact Nat.le_refl _
        · split at h
          · exact Nat.le_of_succ_le (ih h)
          · cases h

theorem le_of_mem_contractInputs (inputs : List TxIn) : ∀ {consumed : UInt64} {idx k : Nat},
    k ∈ contractInputs H vm ctx utxos gasLimit consumed idx inputs → idx ≤ k := by
  induction inputs with
  | nil => intro consumed idx k h; cases h
  | cons input inputs ih =>
    intro consumed idx k h
    rw [contractInputs] at h
    split at h
    · cases h
    · split at h
      · rcases List.mem_cons.mp h with rfl | h
        · exact Nat.le_refl _
        · split at h
          · cases h
          · exact Nat.le_of_succ_le (ih h)
      · exact Nat.le_of_succ_le (ih h)

section
variable {input : TxIn} {utxo : UtxoEntry}

theorem mem_scriptInputs (h : utxos.entries[input.previousOutput]? = some utxo) (idx : Nat) (rest : List TxIn) :
    idx ∈ scriptInputs H eng tx height utxos idx (input :: rest) ↔ isContractLock utxo.output.lockingCondition = false := by
  rw [scriptInputs, h]
  by_cases hlock : isContractLock utxo.output.lockingCondition = true
  · simp only [hlock, if_true]
    exact ⟨fun hmem => absurd (le_of_mem_scriptInputs rest hmem) (Nat.not_succ_le_self idx), fun hfalse => (nomatch hfalse)⟩
  · simp [hlock]

theorem mem_authorizedInputs (h : input.authorization.isEmpty = false) (idx : Nat) (rest : List (TxIn × UtxoEntry)) :
    idx ∈ authorizedInputs H eng tx height idx ((input, utxo) :: rest) ↔
      isContractLock utxo.output.lockingCondition = false := by
  rw [authorizedInputs, h]
  by_cases hlock : isContractLock utxo.output.lockingCondition = true
  · simp only [hlock, Bool.false_eq_true, if_false, if_true]
    exact ⟨fun hmem => absurd (le_of_mem_authorizedInputs rest hmem) (Nat.not_succ_le_self idx),
      fun hfalse => (nomatch hfalse)⟩
  · simp [hlock]

theorem mem_contractInputs (h : utxos.entries[input.previousOutput]? = some utxo) (consumed : UInt64) (idx : Nat)
    (rest : List TxIn) : idx ∈ contractInputs H vm ctx utxos gasLimit consumed idx (input :: rest) ↔
      isScriptLock utxo.output.lockingCondition = true := by
  have hlater : idx ∉ contractInputs H vm ctx utxos gasLimit consumed (idx + 1) rest := fun hmem =>
    absurd (le_of_mem_contractInputs rest hmem) (Nat.not_succ_le_self idx)
  simp only [contractInputs, h, isScriptLock]
  rcases OutputLock.fromLockingCondition utxo.output.lockingCondition with _ | (pk | ⟨scriptHash, datum⟩)
  · simpa using hlater
  · simpa using hlater
  · simp

end

/-! ## Where the checks pass -/

/-- Where every script passes, the inputs handed to the script machine are those that are no
    contract to it. -/
theorem mem_scriptInputs_of_ok (inputs : List TxIn) : ∀ {idx : Nat},
    verifyInputScripts H eng tx height utxos idx inputs = .ok () → ∀ {k : Nat} {input : TxIn}, inputs[k]? = some input →
      ∀ {utxo : UtxoEntry}, utxos.entries[input.previousOutput]? = some utxo →
        (idx + k ∈ scriptInputs H eng tx height utxos idx inputs ↔ isContractLock utxo.output.lockingCondition = false) := by
  induction inputs with
  | nil => intro idx _ k input hk; cases hk
  | cons input inputs ih =>
    intro idx h k input' hk utxo hutxo
    obtain ⟨utxo', hutxo', hpass, hrest⟩ := verifyInputScripts_cons.mp h
    cases k with
    | zero =>
      cases hk
      exact mem_scriptInputs hutxo idx inputs
    | succ k =>
      have hlater := ih hrest (show inputs[k]? = some input' from hk) hutxo
      have hne : idx + (k + 1) ≠ idx := by omega
      rw [← hlater, scriptInputs, hutxo', show idx + 1 + k = idx + (k + 1) by omega]
      by_cases hlock : isContractLock utxo'.output.lockingCondition = true
      · simp only [hlock, if_true]
      · have hexecute := hpass.resolve_left hlock
        simp only [hlock, Bool.false_eq_true, if_false, hexecute, List.mem_cons, hne, false_or]

theorem resolved_of_scripts {inputs : List TxIn} : ∀ {idx : Nat},
    verifyInputScripts H eng tx height utxos idx inputs = .ok () → ∀ {k : Nat} {input : TxIn}, inputs[k]? = some input →
      ∃ utxo, utxos.entries[input.previousOutput]? = some utxo := by
  induction inputs with
  | nil => intro idx _ k input hk; cases hk
  | cons input inputs ih =>
    intro idx h k input' hk
    obtain ⟨utxo, hutxo, -, hrest⟩ := verifyInputScripts_cons.mp h
    cases k with
    | zero =>
      cases hk
      exact ⟨utxo, hutxo⟩
    | succ k => exact ih hrest hk

/-- Where every contract passes, the inputs the VM validates are the contracts. -/
theorem mem_contractInputs_of_ok (inputs : List TxIn) : ∀ {consumed gas : UInt64} {idx : Nat},
    runContracts H vm ctx utxos gasLimit consumed inputs = .ok gas → ∀ {k : Nat} {input : TxIn}, inputs[k]? = some input →
      ∀ {utxo : UtxoEntry}, utxos.entries[input.previousOutput]? = some utxo →
        (idx + k ∈ contractInputs H vm ctx utxos gasLimit consumed idx inputs ↔
          isScriptLock utxo.output.lockingCondition = true) := by
  induction inputs with
  | nil => intro consumed gas idx _ k input hk; cases hk
  | cons input inputs ih =>
    intro consumed gas idx h k input' hk utxo hutxo
    cases k with
    | zero =>
      cases hk
      exact mem_contractInputs hutxo consumed idx inputs
    | succ k =>
      have hk : inputs[k]? = some input' := hk
      have hne : idx + (k + 1) ≠ idx := by omega
      have hidx : idx + 1 + k = idx + (k + 1) := by omega
      rw [runContracts] at h
      rw [contractInputs]
      cases he : utxos.entries[input.previousOutput]? with
      | none => simp [he] at h
      | some e =>
        simp only [he] at h ⊢
        cases hlock : OutputLock.fromLockingCondition e.output.lockingCondition with
        | none =>
          simp only [hlock] at h ⊢
          rw [← hidx]
          exact ih h hk hutxo
        | some lock =>
          cases lock with
          | publicKey key =>
            simp only [hlock] at h ⊢
            rw [← hidx]
            exact ih h hk hutxo
          | script scriptHash datum =>
            simp only [hlock] at h ⊢
            cases hrun : runContract H vm ctx gasLimit consumed scriptHash datum input with
            | error e => simp [hrun] at h
            | ok after =>
              simp only [hrun] at h
              simp only [List.mem_cons, hne, false_or]
              rw [← hidx]
              exact ih h hk hutxo

/-! ## One engine -/

/-- Every input is judged by one engine: where the loops come to it, and, where all checks
    pass, over the whole transaction. -/
structure JudgedOnce (H : Hasher) (tx : Transaction) (utxos : UtxoSet) : Prop where
  reached : ∀ (eng : Engines) (vm : Vm) (ctx : TxContext) (height gasLimit consumed : UInt64) (idx : Nat) (input : TxIn)
    (rest : List TxIn) (utxo : UtxoEntry), tx.inputs.drop idx = input :: rest →
      utxos.entries[input.previousOutput]? = some utxo →
      (idx ∈ scriptInputs H eng tx height utxos idx (input :: rest) ↔
        idx ∉ contractInputs H vm ctx utxos gasLimit consumed idx (input :: rest)) ∧
      ∀ es, input.authorization.isEmpty = false → (idx ∈ authorizedInputs H eng tx height idx ((input, utxo) :: es) ↔
        idx ∉ contractInputs H vm ctx utxos gasLimit consumed idx (input :: rest))
  passed : ∀ (eng : Engines) (vm : Vm) (ctx : TxContext) (height blockTime gasLimit gas : UInt64), tx.isCoinbase = false →
    verifyTransactionScripts H eng tx height utxos = .ok () →
      verifyTransactionEutxo H vm tx blockTime utxos gasLimit = .ok gas → resolveContext H tx blockTime utxos = .ok ctx →
        ∀ idx < tx.inputs.length, (idx ∈ scriptInputs H eng tx height utxos 0 tx.inputs ↔
          idx ∉ contractInputs H vm ctx utxos gasLimit 0 0 tx.inputs)

theorem isScriptLock_of_bare {lockingCondition : Bytes} (h : isBareContract lockingCondition = true) :
    isScriptLock lockingCondition = true := by
  simp only [isBareContract, Bool.and_eq_true, bne_iff_ne] at h
  rw [isScriptLock, OutputLock.fromLockingCondition, if_neg h.1]
  exact h.2

/-- The script machine and the VM divide the locks between them, but for bare contracts. -/
theorem one_engine_iff (lockingCondition : Bytes) :
    (isContractLock lockingCondition = false ↔ ¬isScriptLock lockingCondition = true) ↔
      isBareContract lockingCondition = false := by
  rw [isContractLock_eq]
  cases hbare : isBareContract lockingCondition with
  | false => simp
  | true => simp [isScriptLock_of_bare hbare]

/-- For every transaction and set: each input is judged by one engine and by one only if and
    only if none spends a lock that is a contract without the magic prefix. -/
theorem judged_once_iff (H : Hasher) (tx : Transaction) (utxos : UtxoSet) : JudgedOnce H tx utxos ↔
    ∀ input ∈ tx.inputs, ∀ utxo, utxos.entries[input.previousOutput]? = some utxo →
      isBareContract utxo.output.lockingCondition = false := by
  constructor
  · intro h input hinput utxo hutxo
    obtain ⟨idx, hidx, rfl⟩ := List.getElem_of_mem hinput
    -- any engines and any context: the loops decide by the lock
    obtain ⟨hscript, -⟩ := h.reached ⟨fun _ _ _ _ => .ok true, fun _ _ _ _ => .ok 0⟩ (fun _ _ _ _ _ => .error .outOfGas)
      (createTxContext H tx 0 0 0) 0 0 0 idx _ _ utxo (List.drop_eq_getElem_cons hidx) hutxo
    rw [mem_scriptInputs hutxo, mem_contractInputs hutxo] at hscript
    exact (one_engine_iff _).mp hscript
  · intro h
    constructor
    · intro eng vm ctx height gasLimit consumed idx input rest utxo hdrop hutxo
      have hinput : input ∈ tx.inputs := List.mem_of_mem_drop (hdrop ▸ List.mem_cons_self)
      have hone := (one_engine_iff _).mpr (h input hinput utxo hutxo)
      rw [mem_contractInputs hutxo, mem_scriptInputs hutxo]
      exact ⟨hone, fun es hauth => by rw [mem_authorizedInputs hauth]; exact hone⟩
    · intro eng vm ctx height blockTime gasLimit gas hcoinbase hscripts hcontracts hctx idx hidx
      rw [verifyTransactionScripts, hcoinbase] at hscripts
      rw [verifyTransactionEutxo, hcoinbase, hctx] at hcontracts
      have hget : tx.inputs[idx]? = some tx.inputs[idx] := List.getElem?_eq_getElem hidx
      obtain ⟨utxo, hutxo⟩ := resolved_of_scripts hscripts hget
      have hs := mem_scriptInputs_of_ok tx.inputs hscripts hget hutxo
      have hc : 0 + idx ∈ contractInputs H vm ctx utxos gasLimit 0 0 tx.inputs ↔ _ :=
        mem_contractInputs_of_ok tx.inputs hcontracts hget hutxo
      rw [Nat.zero_add] at hs hc
      rw [hs, hc]
      exact (one_engine_iff _).mpr (h _ (List.getElem_mem hidx) utxo hutxo)

/-! ### A contract without the prefix -/

/-- `bincode` of a contract with an empty datum. -/
def bareLock : Bytes := [1, 0, 0, 0] ++ List.replicate 32 0x51 ++ List.replicate 8 0

def bareCoinbase : Transaction := Transaction.newCoinbase 1 [⟨1000, bareLock⟩]

/-- The set after a block with that coinbase. -/
def bareOutputs (H : Hasher) : UtxoSet := (UtxoSet.applyCoinbase H UtxoSet.new bareCoinbase 1).1

def bareSpend (H : Hasher) : Transaction :=
  ⟨transactionVersion1, [⟨⟨bareCoinbase.txid H, 0⟩, [0x51], 0⟩], [⟨900, [0x51]⟩], 0⟩

set_option maxRecDepth 10000 in
/-- The script machine runs the lock, and then the VM is to validate it. -/
theorem bare_contract_judged_twice : ¬JudgedOnce Blake3.digest (bareSpend Blake3.digest) (bareOutputs Blake3.digest) := by
  intro h
  have hentry : (bareOutputs Blake3.digest).entries[(⟨bareCoinbase.txid Blake3.digest, 0⟩ : OutPoint)]? =
      some ⟨⟨1000, bareLock⟩, 1, true⟩ := by decide +kernel
  have hlock : isContractLock bareLock = false ∧ isScriptLock bareLock = true := by decide
  obtain ⟨hscript, -⟩ := h.reached ⟨fun _ _ _ _ => .ok true, fun _ _ _ _ => .ok 0⟩ (fun _ _ _ _ _ => .error .outOfGas)
    (createTxContext Blake3.digest (bareSpend Blake3.digest) 0 0 0) 2 0 0 0 _ [] _ rfl hentry
  exact hscript.mp ((mem_scriptInputs hentry 0 []).mpr hlock.1) ((mem_contractInputs hentry 0 0 []).mpr hlock.2)

end Scytale
