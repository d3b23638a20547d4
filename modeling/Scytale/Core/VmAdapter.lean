/-
  Scytale.Core.VmAdapter — a transaction's contract inputs
  (crates/scytale-core/src/vm_adapter.rs).

  The host resolves the data of the spent and of the new contract outputs into a context and
  runs the contract of each input in it. The VM is a parameter. Neither the height of the
  block nor that of a spent output enters.
  - `verifyTransactionEutxo_sameOutputs`: only the outputs of the set are read.
-/
import Scytale.Core.Outputs
import Scytale.Hex

namespace Scytale

open Lib

/-- `TxContext` of the SDK: what a contract sees of the transaction. -/
structure TxContext where
  txHash : Hash256
  blockTime : UInt64
  inputAmount : UInt64
  feeBurned : UInt64
  inputDatums : List Bytes
  outputDatums : List Bytes
  ledgerState : List Bytes
  deriving DecidableEq

inductive VmError where
  | compilationFailed
  | instantiationFailed
  | executionTrapped
  | memoryAccessViolation
  | outOfGas
  | outOfFuel
  | memoryLimitExceeded (pages maxPages : UInt32)
  deriving DecidableEq

structure ExecutionResult where
  isValid : Bool
  gasConsumed : UInt64
  deriving DecidableEq

/-- `ScyVM::execute_validator` on bytecode, datum, redeemer, context and gas limit. -/
abbrev Vm := Bytes → Bytes → Bytes → TxContext → UInt64 → Except VmError ExecutionResult

inductive EutxoValidationError where
  | missingUtxo (o : OutPoint)
  | missingScriptSource
  | missingRedeemer
  | scriptHashMismatch (expected actual : Bytes)
  | vmExecutionFailed (e : VmError)
  | validationRejected
  | gasLimitExceeded (consumed limit : UInt64)
  | arithmeticOverflow
  deriving DecidableEq

/-- The derived `Debug`. -/
def VmError.text : VmError → String
  | compilationFailed => "CompilationFailed"
  | instantiationFailed => "InstantiationFailed"
  | executionTrapped => "ExecutionTrapped"
  | memoryAccessViolation => "MemoryAccessViolation"
  | outOfGas => "OutOfGas"
  | outOfFuel => "OutOfFuel"
  | memoryLimitExceeded pages maxPages =>
    "MemoryLimitExceeded \x7b pages: " ++ toString pages.toNat ++ ", max_pages: " ++ toString maxPages.toNat ++ " \x7d"

def EutxoValidationError.text : EutxoValidationError → String
  | missingUtxo o => "Missing UTXO for input " ++ hexText o.txid.bytes ++ ":" ++ toString o.index.toNat
  | missingScriptSource => "Script bytecode not provided in input"
  | missingRedeemer => "Redeemer not provided in input"
  | scriptHashMismatch expected actual =>
    "Script bytecode hash mismatch (expected " ++ hexText expected ++ ", got " ++ hexText actual ++ ")"
  | vmExecutionFailed e => "ScyVM execution failed: " ++ e.text
  | validationRejected => "Smart contract rejected transaction (VALIDATION_REJECT)"
  | gasLimitExceeded consumed limit =>
    "Transaction gas limit exceeded (consumed " ++ toString consumed.toNat ++ ", limit " ++ toString limit.toNat ++ ")"
  | arithmeticOverflow => "Arithmetic overflow calculating fees or gas"

/-! ## Witnesses -/

/-- `bincode::deserialize` of an optional byte vector: a tag, and behind it the length in
    eight bytes and the bytes. -/
def readOptionalVec : Bytes → Option (Option Bytes × Bytes)
  | [] => none
  | tag :: rest =>
    if tag = 0 then some (none, rest)
    else if tag = 1 ∧ 8 ≤ rest.length ∧ leNat (rest.take 8) ≤ rest.length - 8 then
      some (some ((rest.drop 8).take (leNat (rest.take 8))), (rest.drop 8).drop (leNat (rest.take 8)))
    else none

structure EutxoWitness where
  signature : Option Bytes
  redeemer : Option Bytes
  scriptSource : Option Bytes
  deriving DecidableEq

namespace EutxoWitness

/-- `TxInput::MAGIC_PREFIX`, "SCY" and a version byte. -/
def magicPrefix : Bytes := [0x53, 0x43, 0x59, 0x02]

/-- Bytes behind the last field are ignored. -/
def deserialize (bs : Bytes) : Option EutxoWitness :=
  match readOptionalVec bs with
  | none => none
  | some (signature, bs) =>
    match readOptionalVec bs with
    | none => none
    | some (redeemer, bs) =>
      match readOptionalVec bs with
      | none => none
      | some (scriptSource, _) => some ⟨signature, redeemer, scriptSource⟩

/-- The witness of `TxInput::from_tx_in`. -/
def fromTxIn (input : TxIn) : Option EutxoWitness :=
  if input.authorization.take 4 = magicPrefix then deserialize (input.authorization.drop 4)
  else deserialize input.authorization

end EutxoWitness

/-! ## The context -/

/-- `b"SCYTALE_TX_BODY_V1"`. -/
def txBodyTag : Bytes :=
  [0x53, 0x43, 0x59, 0x54, 0x41, 0x4c, 0x45, 0x5f, 0x54, 0x58, 0x5f, 0x42, 0x4f, 0x44, 0x59, 0x5f, 0x56, 0x31]

/-- The digest of the transaction without its authorizations. -/
def Transaction.computeHash (H : Hasher) (t : Transaction) : Hash256 :=
  H (txBodyTag ++ u32le t.version ++ u64le t.lockTime ++ u32le (UInt32.ofNat t.inputs.length) ++
    (t.inputs.flatMap fun i => i.previousOutput.toFixedBytes) ++ u32le (UInt32.ofNat t.outputs.length) ++
    t.outputs.flatMap fun o => u64le o.value ++ o.lockingCondition)

def createTxContext (H : Hasher) (tx : Transaction) (blockTime totalInputAmount totalOutputAmount : UInt64) : TxContext where
  txHash := tx.computeHash H
  blockTime := blockTime
  inputAmount := totalInputAmount
  -- `saturating_sub`
  feeBurned := UInt64.ofNat (totalInputAmount.toNat - totalOutputAmount.toNat)
  inputDatums := []
  outputDatums := []
  ledgerState := []

/-- The datum of a contract lock. -/
def scriptDatum (lockingCondition : Bytes) : Option Bytes :=
  match OutputLock.fromLockingCondition lockingCondition with
  | some (.script _ datum) => some datum
  | _ => none

/-- The data of the contract outputs the inputs spend. -/
def resolvedDatums (utxos : UtxoSet) (inputs : List TxIn) : List Bytes :=
  inputs.filterMap fun i => utxos.entries[i.previousOutput]?.bind fun e => scriptDatum e.output.lockingCondition

/-- The checked sum over the inputs. -/
def sumResolved (utxos : UtxoSet) : UInt64 → List TxIn → Except EutxoValidationError UInt64
  | total, [] => .ok total
  | total, i :: is =>
    match utxos.entries[i.previousOutput]? with
    | none => .error (.missingUtxo i.previousOutput)
    | some e =>
      match checkedAdd total e.output.value with
      | none => .error .arithmeticOverflow
      | some total => sumResolved utxos total is

/-- The context the contracts of a transaction run in. -/
def resolveContext (H : Hasher) (tx : Transaction) (blockTime : UInt64) (utxos : UtxoSet) :
    Except EutxoValidationError TxContext :=
  match sumResolved utxos 0 tx.inputs with
  | .error e => .error e
  | .ok totalIn =>
    match tx.totalOutputQuanta with
    | .error _ => .error .arithmeticOverflow
    | .ok totalOut => .ok { createTxContext H tx blockTime totalIn totalOut with
        inputDatums := resolvedDatums utxos tx.inputs
        outputDatums := tx.outputs.filterMap fun o => scriptDatum o.lockingCondition
        ledgerState := resolvedDatums utxos tx.inputs }

/-! ## Running the contracts -/

section
variable (H : Hasher) (vm : Vm)

/-- One contract, with the gas used so far; the gas used after it. -/
def runContract (ctx : TxContext) (gasLimit consumed : UInt64) (scriptHash datum : Bytes) (input : TxIn) :
    Except EutxoValidationError UInt64 :=
  match EutxoWitness.fromTxIn input with
  | none => .error .missingScriptSource
  | some witness =>
    match witness.scriptSource with
    | none => .error .missingScriptSource
    | some wasmCode =>
      match witness.redeemer with
      | none => .error .missingRedeemer
      | some redeemer =>
        if (H wasmCode).bytes ≠ scriptHash then .error (.scriptHashMismatch scriptHash (H wasmCode).bytes)
        -- `saturating_sub`
        else match vm wasmCode datum redeemer ctx (UInt64.ofNat (gasLimit.toNat - consumed.toNat)) with
          | .error e => .error (.vmExecutionFailed e)
          | .ok r =>
            if !r.isValid then .error .validationRejected
            else match checkedAdd consumed r.gasConsumed with
              | none => .error .arithmeticOverflow
              | some consumed => if consumed > gasLimit then .error (.gasLimitExceeded consumed gasLimit) else .ok consumed

/-- The loop over the inputs. -/
def runContracts (ctx : TxContext) (utxos : UtxoSet) (gasLimit : UInt64) : UInt64 → List TxIn →
    Except EutxoValidationError UInt64
  | consumed, [] => .ok consumed
  | consumed, i :: is =>
    match utxos.entries[i.previousOutput]? with
    | none => .error (.missingUtxo i.previousOutput)
    | some e =>
      match OutputLock.fromLockingCondition e.output.lockingCondition with
      | some (.script scriptHash datum) =>
        match runContract H vm ctx gasLimit consumed scriptHash datum i with
        | .error e => .error e
        | .ok consumed => runContracts ctx utxos gasLimit consumed is
      | _ => runContracts ctx utxos gasLimit consumed is

def verifyTransactionEutxo (tx : Transaction) (blockTime : UInt64) (utxos : UtxoSet) (gasLimit : UInt64) :
    Except EutxoValidationError UInt64 :=
  if tx.isCoinbase then .ok 0
  else match resolveContext H tx blockTime utxos with
    | .error e => .error e
    | .ok ctx => runContracts H vm ctx utxos gasLimit 0 tx.inputs

end

/-! ## What is read of the set -/

section
variable {s t : UtxoSet}

theorem sumResolved_sameOutputs (h : UtxoSet.SameOutputs s t) (is : List TxIn) : ∀ total : UInt64,
    sumResolved s total is = sumResolved t total is := by
  induction is with
  | nil => intro total; rfl
  | cons i is ih =>
    intro total
    rcases h.lookup i.previousOutput with ⟨hs, ht⟩ | ⟨e, e', hs, ht, hout⟩
    · simp only [sumResolved, hs, ht]
    · simp only [sumResolved, hs, ht, hout]
      cases checkedAdd total e'.output.value with
      | none => rfl
      | some total => exact ih total

theorem resolvedDatums_sameOutputs (h : UtxoSet.SameOutputs s t) (is : List TxIn) :
    resolvedDatums s is = resolvedDatums t is := by
  refine List.filterMap_congr fun i _ => ?_
  rcases h.lookup i.previousOutput with ⟨hs, ht⟩ | ⟨e, e', hs, ht, hout⟩
  · rw [hs, ht]
  · rw [hs, ht, Option.bind_some, Option.bind_some, hout]

theorem runContracts_sameOutputs (H : Hasher) (vm : Vm) (h : UtxoSet.SameOutputs s t) (ctx : TxContext)
    (gasLimit : UInt64) (is : List TxIn) : ∀ consumed : UInt64,
    runContracts H vm ctx s gasLimit consumed is = runContracts H vm ctx t gasLimit consumed is := by
  induction is with
  | nil => intro consumed; rfl
  | cons i is ih =>
    intro consumed
    rcases h.lookup i.previousOutput with ⟨hs, ht⟩ | ⟨e, e', hs, ht, hout⟩
    · simp only [runContracts, hs, ht]
    · simp only [runContracts, hs, ht, hout, ih]

theorem verifyTransactionEutxo_sameOutputs (H : Hasher) (vm : Vm) (h : UtxoSet.SameOutputs s t) (tx : Transaction)
    (blockTime gasLimit : UInt64) :
    verifyTransactionEutxo H vm tx blockTime s gasLimit = verifyTransactionEutxo H vm tx blockTime t gasLimit := by
  simp only [verifyTransactionEutxo, resolveContext, sumResolved_sameOutputs h, resolvedDatums_sameOutputs h,
    runContracts_sameOutputs H vm h]

end

end Scytale
