/-
  Scytale.Stratum.Job — mining jobs (crates/scytale-stratum/src/job.rs, header.rs).

  A job carries the coinbase in two halves, with room for the extranonces between them,
  and the branches `build_merkle_root` folds onto the digest of the whole.
  - `StratumJob.buildMerkleRoot_hashed`: where there is a branch, the root is the digest of
    at most two digests, whatever the number of branches.
-/
import Scytale.Core.Utxo
import Scytale.Core.TxIdentity

namespace Scytale

open Lib

structure RawBlockHeader120 where
  version : UInt32
  prevHash : Hash256
  merkleRoot : Hash256
  utxoRoot : Hash256
  timestamp : UInt64
  bits : UInt32
  nonce : UInt64
  deriving DecidableEq

/-- `From<RawBlockHeader120> for BlockHeader`. -/
def RawBlockHeader120.toBlockHeader (raw : RawBlockHeader120) : BlockHeader :=
  ⟨raw.version, raw.prevHash, raw.merkleRoot, raw.utxoRoot, raw.timestamp, raw.bits, raw.nonce⟩

structure StratumJob where
  jobId : String
  prevHash : Hash256
  coinbase1 : Bytes
  coinbase2 : Bytes
  merkleBranches : List Hash256
  version : UInt32
  bits : UInt32
  utxoRoot : Hash256
  curtime : UInt64
  cleanJobs : Bool
  deriving DecidableEq

namespace StratumJob

/-- The coinbase payload, put together from its halves and the extranonces. -/
def rawCoinbase (job : StratumJob) (extranonce1 extranonce2 : Bytes) : Bytes :=
  job.coinbase1 ++ extranonce1 ++ extranonce2 ++ job.coinbase2

/-- What one branch feeds to the hasher: a zero branch feeds nothing. -/
def branchString (currentHash branch : Hash256) : Bytes :=
  currentHash.bytes ++ if branch = Hash256.zero then [] else branch.bytes

section
variable (H : Hasher)

/-- The coinbase is the leftmost leaf; the branches are folded onto its digest. -/
def buildMerkleRoot (job : StratumJob) (extranonce1 extranonce2 : Bytes) : Hash256 :=
  job.merkleBranches.foldl (fun currentHash branch => H (branchString currentHash branch))
    (H (job.rawCoinbase extranonce1 extranonce2))

def buildHeader (job : StratumJob) (merkleRoot : Hash256) (timestamp nonce : UInt64) : RawBlockHeader120 :=
  ⟨job.version, job.prevHash, merkleRoot, job.utxoRoot, timestamp, job.bits, nonce⟩

/-- Levels until one node is left, and at each the sibling of the first node. Doubling an odd
    level's last node leaves the second where it is; `merkleLevel` pairs such a node with
    itself. -/
def branchLoop : Nat → List Hash256 → List Hash256
  | f + 1, a :: sibling :: l => sibling :: branchLoop f (UtxoSet.merkleLevel H (a :: sibling :: l))
  | _, _ => []

/-- Each level is shorter, so the number of leaves is fuel enough. A zero digest stands for
    the coinbase. -/
def calculateMerkleBranches (otherTxHashes : List Hash256) : List Hash256 :=
  if otherTxHashes.isEmpty then []
  else branchLoop H (otherTxHashes.length + 1) (Hash256.zero :: otherTxHashes)

/-- The strings hashed along the branches. -/
def branchStrings : Hash256 → List Hash256 → List Bytes
  | _, [] => []
  | currentHash, branch :: branches =>
    branchString currentHash branch :: branchStrings (H (branchString currentHash branch)) branches

/-- The strings `buildMerkleRoot` hashes after the coinbase. -/
def merkleStrings (job : StratumJob) (extranonce1 extranonce2 : Bytes) : List Bytes :=
  branchStrings H (H (job.rawCoinbase extranonce1 extranonce2)) job.merkleBranches

end

variable {H : Hasher}

theorem branchString_length (cur branch : Hash256) : (branchString cur branch).length ≤ 64 := by
  rw [branchString, List.length_append, cur.size]
  split
  · simp
  · rw [branch.size]

/-- The last fold hashes the root. -/
theorem foldl_hashed : ∀ (branches : List Hash256) (cur : Hash256), branches ≠ [] →
    ∃ bs ∈ branchStrings H cur branches, branches.foldl (fun cur branch => H (branchString cur branch)) cur = H bs ∧
      bs.length ≤ 64
  | [], _, h => absurd rfl h
  | [branch], cur, _ => ⟨_, List.mem_singleton_self _, rfl, branchString_length cur branch⟩
  | branch :: b :: branches, cur, _ => by
    obtain ⟨bs, hbs, hroot, hlen⟩ := foldl_hashed (b :: branches) (H (branchString cur branch)) (by simp)
    exact ⟨bs, List.mem_cons_of_mem _ hbs, hroot, hlen⟩

theorem buildMerkleRoot_hashed {job : StratumJob} (h : job.merkleBranches ≠ []) (extranonce1 extranonce2 : Bytes) :
    ∃ bs ∈ job.merkleStrings H extranonce1 extranonce2, job.buildMerkleRoot H extranonce1 extranonce2 = H bs ∧
      bs.length ≤ 64 :=
  foldl_hashed _ _ h

theorem calculateMerkleBranches_ne_nil {hashes : List Hash256} (h : hashes ≠ []) :
    calculateMerkleBranches H hashes ≠ [] := by
  obtain ⟨a, hashes, rfl⟩ := List.exists_cons_of_ne_nil h
  simp [calculateMerkleBranches, branchLoop]

end StratumJob

end Scytale
