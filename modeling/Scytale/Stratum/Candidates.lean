/-
  Scytale.Stratum.Candidates — which shares are taken for blocks
  (crates/scytale-stratum/src/shares.rs, crates/scytale-consensus/src/pow.rs).

  A share is a candidate where its digest meets the job's target in consensus, or is at most
  `compact_to_target` of the job's bits, read from either end.
  - `compactToTarget_le`: the pool's target is never above that of consensus.
  - `share_candidate_iff`: so the pool and consensus agree but for digests that are small read
    backwards: `reversed_share_is_candidate`.
-/
import Scytale.Stratum.Shares
import Scytale.Blake3

namespace Scytale

open Lib

variable {H : Hasher}

/-- Shifted out of 256 bits the pool's target is smaller, and there consensus takes the largest. -/
theorem compactToTarget_le (compact : UInt32) : compactToTarget compact ≤ (Target.fromCompact compact).val := by
  have hshift : ∀ k : Nat, 2 ^ (8 * k) = 256 ^ k := fun k => by rw [Nat.pow_mul]
  rw [Target.fromCompact_val, compactToTarget]
  split
  · exact Nat.le_refl _
  · by_cases h3 : Target.exponent compact ≤ 3
    · rw [if_pos h3, if_pos h3, Nat.shiftRight_eq_div_pow, hshift]
    · rw [if_neg h3, if_neg h3, Nat.shiftLeft_eq, hshift]
      by_cases h32 : Target.exponent compact ≤ 32
      · rw [if_pos h32]
        exact Nat.mod_le _ _
      · rw [if_neg h32]
        have := Nat.mod_lt ((Target.mantissa compact).toNat * 256 ^ (Target.exponent compact - 3)) (show 0 < 2 ^ 256 by decide)
        omega

theorem isMetBy_of_le_compactToTarget {compact : UInt32} {hash : Hash256} (h : byteVal hash.bytes ≤ compactToTarget compact) :
    (Target.fromCompact compact).isMetBy hash = true :=
  (Target.isMetBy_iff _ _).mpr (Nat.le_trans h (compactToTarget_le compact))

/-- The job header's bytes are those of the header it becomes. -/
theorem RawBlockHeader120.serialize_eq (raw : RawBlockHeader120) : raw.serialize = raw.toBlockHeader.canonicalBytes := rfl

namespace StratumJob

section
variable (H : Hasher)

/-- The header a share stands for. -/
def shareHeader (job : StratumJob) (extranonce1 extranonce2 : Extranonce) (timestamp nonce : UInt64) : RawBlockHeader120 :=
  job.buildHeader (job.buildMerkleRoot H extranonce1 extranonce2) timestamp nonce

end

/-- The digest, in either byte order, is at most the share target. -/
def MeetsShareTarget (hash : Hash256) (shareTarget : Nat) : Prop :=
  byteVal hash.bytes ≤ shareTarget ∨ byteVal hash.bytes.reverse ≤ shareTarget

/-- The digest is at most the pool's network target when it is read backwards. -/
def MeetsReversed (job : StratumJob) (hash : Hash256) : Prop := byteVal hash.bytes.reverse ≤ compactToTarget job.bits

end StratumJob

theorem verifyPow_share (raw : RawBlockHeader120) (target : Target) :
    verifyPow H raw.toBlockHeader target = .ok () ↔ target.isMetBy (raw.computePowHash H) = true := by
  rw [verifyPow, RawBlockHeader120.computePowHash, RawBlockHeader120.serialize_eq]
  show _ ↔ target.isMetBy (raw.toBlockHeader.hash H) = true
  by_cases h : target.isMetBy (raw.toBlockHeader.hash H) = true <;> simp [h]

/-- What `verify_worker_share` answers to a share that meets the share target. -/
theorem verifyWorkerShare_candidate {job : StratumJob} {extranonce1 extranonce2 : Extranonce} {timestamp nonce : UInt64}
    {shareTarget : Nat}
    (hshare : StratumJob.MeetsShareTarget ((job.shareHeader H extranonce1 extranonce2 timestamp nonce).computePowHash H)
      shareTarget) :
    (∃ header hash, verifyWorkerShare H job extranonce1 extranonce2 timestamp nonce shareTarget =
        .ok (.blockCandidate header hash)) ↔
      (Target.fromCompact job.bits).isMetBy ((job.shareHeader H extranonce1 extranonce2 timestamp nonce).computePowHash H) =
          true ∨
        job.MeetsReversed ((job.shareHeader H extranonce1 extranonce2 timestamp nonce).computePowHash H) := by
  unfold StratumJob.MeetsShareTarget at hshare
  unfold StratumJob.MeetsReversed verifyWorkerShare
  generalize hheader : job.shareHeader H extranonce1 extranonce2 timestamp nonce = header at hshare ⊢
  rw [StratumJob.shareHeader] at hheader
  simp only [hheader]
  generalize header.computePowHash H = hash at hshare ⊢
  have hmeets : (!(decide (byteVal hash.bytes ≤ shareTarget) || decide (byteVal hash.bytes.reverse ≤ shareTarget))) =
      false := by
    simpa [imp_iff_not_or] using hshare
  have hbe : byteVal hash.bytes ≤ compactToTarget job.bits → (Target.fromCompact job.bits).isMetBy hash = true :=
    isMetBy_of_le_compactToTarget
  rw [hmeets]
  simp only [Bool.false_eq_true, if_false]
  by_cases hmet : (Target.fromCompact job.bits).isMetBy hash = true
  · simp [hmet]
  · have hnot : ¬byteVal hash.bytes ≤ compactToTarget job.bits := fun h => hmet (hbe h)
    by_cases hreversed : byteVal hash.bytes.reverse ≤ compactToTarget job.bits <;> simp [hmet, hnot, hreversed]

/-- For every share that meets its target, at every bits: it is taken for a block exactly when
    consensus takes its header, if and only if a digest that is small read backwards also
    meets the target as it stands. -/
theorem share_candidate_iff {job : StratumJob} {extranonce1 extranonce2 : Extranonce} {timestamp nonce : UInt64}
    {shareTarget : Nat}
    (hshare : StratumJob.MeetsShareTarget ((job.shareHeader H extranonce1 extranonce2 timestamp nonce).computePowHash H)
      shareTarget) :
    ((∃ header hash, verifyWorkerShare H job extranonce1 extranonce2 timestamp nonce shareTarget =
          .ok (.blockCandidate header hash)) ↔
        verifyPow H (job.shareHeader H extranonce1 extranonce2 timestamp nonce).toBlockHeader
          (Target.fromCompact job.bits) = .ok ()) ↔
      (job.MeetsReversed ((job.shareHeader H extranonce1 extranonce2 timestamp nonce).computePowHash H) →
        (Target.fromCompact job.bits).isMetBy
          ((job.shareHeader H extranonce1 extranonce2 timestamp nonce).computePowHash H) = true) := by
  rw [verifyWorkerShare_candidate hshare, verifyPow_share]
  tauto

/-! ### A digest that is small backwards -/

/-- A job of the target `0x7fffff` and 29 zero bytes. -/
def reversedJob : StratumJob := ⟨"1", Hash256.zero, [], [], [], 1, 0x207fffff, Hash256.zero, 60, true⟩

def zeroExtranonce : Extranonce := ⟨[0, 0, 0, 0], zeroBytes_length⟩

/-- Every digest meets the share target of a difficulty of zero. -/
theorem meetsShareTarget_max (hash : Hash256) : StratumJob.MeetsShareTarget hash (2 ^ 256 - 1) := by
  have := byteVal_lt hash.bytes
  rw [hash.size] at this
  exact .inl (Nat.le_sub_one_of_lt this)

/-- The digest of the share at nonce 5 begins with a 1. -/
theorem share_candidate_iff_small :
    ((∃ header hash, verifyWorkerShare Blake3.digest reversedJob zeroExtranonce zeroExtranonce 60 5 (2 ^ 256 - 1) =
          .ok (.blockCandidate header hash)) ↔
        verifyPow Blake3.digest (reversedJob.shareHeader Blake3.digest zeroExtranonce zeroExtranonce 60 5).toBlockHeader
          (Target.fromCompact reversedJob.bits) = .ok ()) ↔
      (reversedJob.MeetsReversed
          ((reversedJob.shareHeader Blake3.digest zeroExtranonce zeroExtranonce 60 5).computePowHash Blake3.digest) →
        (Target.fromCompact reversedJob.bits).isMetBy
          ((reversedJob.shareHeader Blake3.digest zeroExtranonce zeroExtranonce 60 5).computePowHash Blake3.digest) = true) :=
  share_candidate_iff (meetsShareTarget_max _)

/-- At nonce 2 it begins with `0xe6` and ends with `0x66`: a candidate that consensus refuses. -/
theorem reversed_share_is_candidate :
    StratumJob.MeetsShareTarget
        ((reversedJob.shareHeader Blake3.digest zeroExtranonce zeroExtranonce 60 2).computePowHash Blake3.digest)
        (2 ^ 256 - 1) ∧
      (∃ header hash, verifyWorkerShare Blake3.digest reversedJob zeroExtranonce zeroExtranonce 60 2 (2 ^ 256 - 1) =
        .ok (.blockCandidate header hash)) ∧
      verifyPow Blake3.digest (reversedJob.shareHeader Blake3.digest zeroExtranonce zeroExtranonce 60 2).toBlockHeader
        (Target.fromCompact reversedJob.bits) ≠ .ok () := by
  refine ⟨meetsShareTarget_max _, (verifyWorkerShare_candidate (meetsShareTarget_max _)).mpr (.inr ?_), ?_⟩
  · unfold StratumJob.MeetsReversed
    decide +kernel
  · decide +kernel

end Scytale
