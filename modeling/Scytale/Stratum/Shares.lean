/-
  Scytale.Stratum.Shares — worker sessions and the check of a share
  (crates/scytale-stratum/src/session.rs, shares.rs, error.rs).

  A session remembers the shares it was sent as job, nonce and extranonce. The share target
  of a difficulty is computed in floating point: it is a parameter here, over any type of
  difficulties.
  - `checkAndRecordShare_fst` / `mem_pruneSharesExcept`: what a session remembers.
-/
import Scytale.Stratum.Service
import Scytale.Consensus.Target
import Scytale.Hex

namespace Scytale

open Lib

/-! ## Errors -/

inductive StratumError where
  | highHash
  | jobNotFound (jobId : String)
  | duplicateShare
  | invalidExtranonce2 (msg : String)
  | invalidNonce (msg : String)
  | invalidTime (msg : String)
  | unauthorized
  | staleJob
  | serialization (msg : String)
  | io (msg : String)
  | arithmetic (msg : String)
  | protocol (msg : String)
  deriving DecidableEq

structure StratumRpcError where
  code : Int
  message : String
  deriving DecidableEq

namespace StratumRpcError

def methodNotFound (method : String) : StratumRpcError := ⟨-32601, "Method not found: " ++ method⟩

def invalidParams (reason : String) : StratumRpcError := ⟨-32602, "Invalid params: " ++ reason⟩

def workerNotAuthorized : StratumRpcError := ⟨24, "Worker not authorized"⟩

def jobNotFound (jobId : String) : StratumRpcError := ⟨21, "Job not found: " ++ jobId⟩

def duplicateShare : StratumRpcError := ⟨22, "Duplicate share submitted"⟩

def lowDifficultyShare : StratumRpcError := ⟨23, "High hash - share does not meet target"⟩

def ofStratumError : StratumError → StratumRpcError
  | .highHash => lowDifficultyShare
  | .jobNotFound jobId => jobNotFound jobId
  | .duplicateShare => duplicateShare
  | .unauthorized => workerNotAuthorized
  | .invalidExtranonce2 msg => invalidParams msg
  | .invalidNonce msg => invalidParams msg
  | .invalidTime msg => invalidParams msg
  | .staleJob => ⟨21, "Stale job"⟩
  | .serialization msg => ⟨-32700, msg⟩
  | .io msg => ⟨-32603, msg⟩
  | .arithmetic msg => ⟨-32603, msg⟩
  | .protocol msg => ⟨-32600, msg⟩

end StratumRpcError

/-! ## Shares -/

inductive ShareVerificationResult where
  | validShare (hash : Hash256)
  | blockCandidate (header : RawBlockHeader120) (hash : Hash256)
  deriving DecidableEq

/-- The number a compact field stands for, shifted out of 256 bits where it is too large. -/
def compactToTarget (compact : UInt32) : Nat :=
  if Target.isNegative compact || Target.mantissa compact == 0 || Target.exponent compact == 0 then 0
  else if Target.exponent compact ≤ 3 then (Target.mantissa compact).toNat >>> (8 * (3 - Target.exponent compact))
  else ((Target.mantissa compact).toNat <<< (8 * (Target.exponent compact - 3))) % 2 ^ 256

/-- The 120 bytes of a header. -/
def RawBlockHeader120.serialize (raw : RawBlockHeader120) : Bytes :=
  u32le raw.version ++ raw.prevHash.bytes ++ raw.merkleRoot.bytes ++ raw.utxoRoot.bytes ++ u64le raw.timestamp ++
    u32le raw.bits ++ u64le raw.nonce

section
variable (H : Hasher)

def RawBlockHeader120.computePowHash (raw : RawBlockHeader120) : Hash256 := H raw.serialize

/-- The digest is compared in both byte orders. -/
def verifyWorkerShare (job : StratumJob) (extranonce1 extranonce2 : Extranonce) (timestamp nonce : UInt64)
    (shareTarget : Nat) : Except StratumError ShareVerificationResult :=
  let header := job.buildHeader (job.buildMerkleRoot H extranonce1 extranonce2) timestamp nonce
  let hash := header.computePowHash H
  let hashBe := byteVal hash.bytes
  let hashLe := byteVal hash.bytes.reverse
  if !(hashBe ≤ shareTarget || hashLe ≤ shareTarget) then .error .highHash
  else
    let networkTarget := compactToTarget job.bits
    if (Target.fromCompact job.bits).isMetBy hash || hashBe ≤ networkTarget || hashLe ≤ networkTarget then
      .ok (.blockCandidate header hash)
    else .ok (.validShare hash)

end

/-! ## Sessions -/

/-- A share as a session remembers it: the job, the nonce and the second extranonce. -/
abbrev ShareKey := String × UInt64 × UInt64

structure WorkerSession (D : Type) where
  sessionId : UInt64
  extranonce1 : Extranonce
  authorizedWorker : Option String
  authorizedAddress : Option String
  difficulty : D
  validShares : UInt64
  invalidShares : UInt64
  submittedShares : List ShareKey

namespace WorkerSession

variable {D : Type}

def new (sessionId : UInt64) (extranonce1 : Extranonce) (initialDiff : D) : WorkerSession D :=
  ⟨sessionId, extranonce1, none, none, initialDiff, 0, 0, []⟩

def recordValidShare (s : WorkerSession D) : WorkerSession D := { s with validShares := s.validShares + 1 }

def recordInvalidShare (s : WorkerSession D) : WorkerSession D := { s with invalidShares := s.invalidShares + 1 }

/-- Whether the share is new, which then is remembered. -/
def checkAndRecordShare (s : WorkerSession D) (key : ShareKey) : WorkerSession D × Bool :=
  if key ∈ s.submittedShares then (s, false) else ({ s with submittedShares := key :: s.submittedShares }, true)

def pruneSharesExcept (s : WorkerSession D) (validJobIds : List String) : WorkerSession D :=
  { s with submittedShares := s.submittedShares.filter fun key => key.1 ∈ validJobIds }

@[simp] theorem recordValidShare_submittedShares (s : WorkerSession D) :
    s.recordValidShare.submittedShares = s.submittedShares := rfl

@[simp] theorem recordInvalidShare_submittedShares (s : WorkerSession D) :
    s.recordInvalidShare.submittedShares = s.submittedShares := rfl

@[simp] theorem recordValidShare_extranonce1 (s : WorkerSession D) : s.recordValidShare.extranonce1 = s.extranonce1 := rfl

@[simp] theorem recordInvalidShare_extranonce1 (s : WorkerSession D) :
    s.recordInvalidShare.extranonce1 = s.extranonce1 := rfl

@[simp] theorem mem_pruneSharesExcept (s : WorkerSession D) (validJobIds : List String) (key : ShareKey) :
    key ∈ (s.pruneSharesExcept validJobIds).submittedShares ↔ key ∈ s.submittedShares ∧ key.1 ∈ validJobIds := by
  simp [pruneSharesExcept]

end WorkerSession

end Scytale
