/-
  Scytale.Core.Authorization — the verdicts on spends, and the authorization of a
  transaction's inputs (crates/scytale-core/src/authorization.rs).

  The two engines that judge a spend, the stack machine and the contract VM, are parameters
  (`Engines`); results hold for all engines.
-/
import Scytale.Core.Sighash
import Scytale.Core.Utxo

namespace Scytale

open Lib

/-- `ScriptEngine::execute` on an unlocking script, a locking script, a signature hash and
    a height; `verify_transaction_eutxo` on a transaction, a block time, a set and a gas
    limit. Errors are the texts they are shown as. -/
structure Engines where
  execute : Bytes → Bytes → Hash256 → UInt64 → Except String Bool
  verifyTransactionEutxo : Transaction → UInt64 → UtxoSet → UInt64 → Except String UInt64

/-- A contract's output: the VM judges it, not the stack machine. -/
def isContractLock (lockingCondition : Bytes) : Bool :=
  lockingCondition.take 4 == OutputLock.magicPrefix &&
    match OutputLock.fromLockingCondition lockingCondition with
    | some (.script _ _) => true
    | _ => false

inductive AuthorizationError where
  | emptyAuthorization
  | malformedProof (text : String)
  | signatureMismatch
  | mismatchedUtxoCount (inputCount utxoCount : Nat)
  | invalidInputIndex (index totalInputs : Nat)
  /-- Shown as the text of the codec's error. -/
  | preimageSerializationFailure (e : SerializationError)
  deriving DecidableEq

/-- `AuthorizationVerifier::verify`: a preimage digest, a locking condition and a proof. -/
abbrev AuthorizationVerifier := Hash256 → Bytes → Bytes → Except AuthorizationError Unit

section
variable (H : Hasher)

/-- The loop over the inputs and the entries they resolve to, from index `idx` on. -/
def verifyAuthorizations (tx : Transaction) (verifier : AuthorizationVerifier) : Nat → List (TxIn × UtxoEntry) →
    Except AuthorizationError Unit
  | _, [] => .ok ()
  | idx, (input, entry) :: rest =>
    if input.authorization.isEmpty then .error .emptyAuthorization
    else match verifier (tx.computeSighash H idx entry.output.lockingCondition) entry.output.lockingCondition
        input.authorization with
      | .error e => .error e
      | .ok () => verifyAuthorizations tx verifier (idx + 1) rest

def verifyTransactionAuthorization (tx : Transaction) (resolvedUtxos : List UtxoEntry) (verifier : AuthorizationVerifier) :
    Except AuthorizationError Unit :=
  if tx.inputs.length ≠ resolvedUtxos.length then
    .error (.mismatchedUtxoCount tx.inputs.length resolvedUtxos.length)
  else verifyAuthorizations H tx verifier 0 (tx.inputs.zip resolvedUtxos)

end

/-- `ConsensusScriptVerifier`. -/
def consensusScriptVerifier (eng : Engines) (currentBlockHeight : UInt64) : AuthorizationVerifier :=
  fun preimageDigest lockingCondition proof =>
    if isContractLock lockingCondition then .ok ()
    else match eng.execute proof lockingCondition preimageDigest currentBlockHeight with
      | .error text => .error (.malformedProof text)
      | .ok false => .error .signatureMismatch
      | .ok true => .ok ()

end Scytale
