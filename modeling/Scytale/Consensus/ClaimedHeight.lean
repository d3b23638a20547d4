/-
  Scytale.Consensus.ClaimedHeight — the verifier that reads a block's height off the block
  (crates/scytale-consensus/src/chain.rs).

  `AuthoritativeTransactionVerifier` runs the authoritative checks again, at the height in
  the first eight bytes of the coinbase's authorization and without headers, so that the
  median time is 0. Nobody compares that number with the block's place in the chain.
  - `SoundBlock`: what the checks ask at every height.
  - `Timely`: what they ask of the height and the median time.
  - `height_agreement_iff`: the two verdicts agree exactly when a sound block is timely at
    its own height and median time just when it is at the height it claims and at 0.
-/
import Scytale.Core.Outputs
import Scytale.Consensus.Replay

namespace Scytale

open Lib

variable {H : Hasher}

/-! ## Lock times -/

/-- The lock time counts: it is set, and some input is not final. -/
def Transaction.locked (tx : Transaction) : Bool :=
  tx.lockTime != 0 && !tx.inputs.all fun i => i.sequence == 0xffffffff

theorem validateLockTime_iff (tx : Transaction) (height mtp : UInt64) : validateLockTime tx height mtp = .ok () ↔
    (tx.locked = true → if tx.lockTime < 500000000 then tx.lockTime ≤ height else tx.lockTime ≤ mtp) := by
  have hlocked : tx.locked = true ↔ ¬(tx.lockTime = 0 ∨ tx.inputs.all (fun i => i.sequence == 0xffffffff) = true) := by
    simp [Transaction.locked]
  rw [hlocked, validateLockTime]
  by_cases hfree : tx.lockTime = 0 ∨ tx.inputs.all (fun i => i.sequence == 0xffffffff) = true
  · rw [if_pos hfree]
    exact iff_of_true rfl fun h => absurd hfree h
  · rw [if_neg hfree, imp_iff_right hfree]
    by_cases hkind : tx.lockTime < 500000000
    · simp [hkind]
    · simp [hkind]

theorem validateLockTimes_iff (height mtp : UInt64) (txs : List Transaction) : validateLockTimes height mtp txs = .ok () ↔
    ∀ tx ∈ txs, validateLockTime tx height mtp = .ok () := by
  induction txs with
  | nil => simp [validateLockTimes]
  | cons tx txs ih =>
    rw [List.forall_mem_cons, ← ih, validateLockTimes]
    cases validateLockTime tx height mtp <;> simp

/-! ## The checks that depend on the height, and the others -/

/-- What the authoritative checks ask of a block at every height. -/
structure SoundBlock (H : Hasher) (b : Block) (parentUtxo : UtxoSet) (fees : UInt64) : Prop where
  structured : b.validateStructure = .ok ()
  committed : b.header.transactionCommitment = transactionCommitment H b
  applies : ∀ height, ∃ u, UtxoSet.applyBlock H parentUtxo b.transactions height = .ok (u, fees)

/-- What they ask of the height and the median time. -/
structure Timely (b : Block) (height mtp fees : UInt64) : Prop where
  heightLocks : ∀ tx ∈ b.transactions.tail, tx.locked = true → tx.lockTime < 500000000 → tx.lockTime ≤ height
  timeLocks : ∀ tx ∈ b.transactions.tail, tx.locked = true → ¬tx.lockTime < 500000000 → tx.lockTime ≤ mtp
  reward : ∃ out, (b.transactions.headD ⟨0, [], [], 0⟩).totalOutputQuanta = .ok out ∧
    (getBlockSubsidy height).toNat + fees.toNat < 2 ^ 64 ∧ out.toNat ≤ (getBlockSubsidy height).toNat + fees.toNat

theorem validateLockTimes_split (height mtp : UInt64) (txs : List Transaction) :
    validateLockTimes height mtp txs = .ok () ↔
      (∀ tx ∈ txs, tx.locked = true → tx.lockTime < 500000000 → tx.lockTime ≤ height) ∧
      ∀ tx ∈ txs, tx.locked = true → ¬tx.lockTime < 500000000 → tx.lockTime ≤ mtp := by
  rw [validateLockTimes_iff, ← forall₂_and]
  refine forall₂_congr fun tx _ => ?_
  rw [validateLockTime_iff]
  by_cases hkind : tx.lockTime < 500000000 <;> simp [hkind]

theorem checkReward_iff (b : Block) (height fees : UInt64) : (∃ f, checkReward b height fees = .ok f) ↔
    ∃ out, (b.transactions.headD ⟨0, [], [], 0⟩).totalOutputQuanta = .ok out ∧
      (getBlockSubsidy height).toNat + fees.toNat < 2 ^ 64 ∧
      out.toNat ≤ (getBlockSubsidy height).toNat + fees.toNat := by
  unfold checkReward
  cases (b.transactions.headD ⟨0, [], [], 0⟩).totalOutputQuanta with
  | error e => simp
  | ok out =>
    by_cases hfits : (getBlockSubsidy height).toNat + fees.toNat < 2 ^ 64
    · have hsum := checkedAdd_of_lt hfits
      have hval := checkedAdd_eq_some hsum
      simp only [hsum, gt_iff_lt, UInt64.lt_iff_toNat_lt, hval]
      by_cases hpaid : out.toNat ≤ (getBlockSubsidy height).toNat + fees.toNat
      · rw [if_neg (Nat.not_lt.mpr hpaid)]
        exact iff_of_true ⟨fees, rfl⟩ ⟨out, rfl, hfits, hpaid⟩
      · rw [if_pos (Nat.not_le.mp hpaid)]
        refine iff_of_false (fun ⟨f, hf⟩ => by cases hf) ?_
        rintro ⟨out', hout, -, hle⟩
        cases hout
        exact hpaid hle
    · have hnone : checkedAdd (getBlockSubsidy height) fees = none := if_neg hfits
      simp only [hnone]
      exact iff_of_false (fun ⟨f, hf⟩ => by cases hf) fun ⟨out, hout, hlt, hle⟩ => hfits hlt

/-- The verdict and the fees of applying a block are the same at every height. -/
theorem applyBlock_any_height {parentUtxo u : UtxoSet} {txs : List Transaction} {height fees : UInt64}
    (h : UtxoSet.applyBlock H parentUtxo txs height = .ok (u, fees)) (height' : UInt64) :
    ∃ u', UtxoSet.applyBlock H parentUtxo txs height' = .ok (u', fees) :=
  (((UtxoSet.SameOutputs.refl parentUtxo).applyBlock H txs height height').ok_iff fees).mp ⟨u, h⟩

/-- The fees of a sound block are determined. -/
theorem SoundBlock.fees_eq {b : Block} {parentUtxo : UtxoSet} {fees fees' : UInt64} (h : SoundBlock H b parentUtxo fees)
    (h' : SoundBlock H b parentUtxo fees') : fees = fees' := by
  obtain ⟨u, hu⟩ := h.applies 0
  obtain ⟨u', hu'⟩ := h'.applies 0
  rw [hu] at hu'
  cases hu'
  rfl

/-- The authoritative checks, taken apart. -/
theorem authoritative_iff (b : Block) (height : UInt64) (parentUtxo : UtxoSet) (headers : List BlockHeader) :
    (∃ f, validateBlockAuthoritativeWithHeaders H b height parentUtxo headers = .ok f) ↔
      ∃ fees, SoundBlock H b parentUtxo fees ∧ Timely b height (calculateMedianTimePast headers headers.length) fees := by
  constructor
  · rintro ⟨f, hf⟩
    unfold validateBlockAuthoritativeWithHeaders at hf
    split at hf
    · cases hf
    · rename_i hstr
      split at hf
      · cases hf
      · rename_i hcom
        split at hf
        · cases hf
        · rename_i hlocks
          split at hf
          · cases hf
          · rename_i u fees hap
            obtain ⟨hheights, htimes⟩ := (validateLockTimes_split _ _ _).mp hlocks
            exact ⟨fees, ⟨hstr, not_not.mp hcom, applyBlock_any_height hap⟩,
              ⟨hheights, htimes, (checkReward_iff b height fees).mp ⟨f, hf⟩⟩⟩
  · rintro ⟨fees, hs, ht⟩
    have hlocks := (validateLockTimes_split height (calculateMedianTimePast headers headers.length)
      b.transactions.tail).mpr ⟨ht.heightLocks, ht.timeLocks⟩
    obtain ⟨u, hap⟩ := hs.applies height
    obtain ⟨f, hf⟩ := (checkReward_iff b height fees).mpr ht.reward
    refine ⟨f, ?_⟩
    simp only [validateBlockAuthoritativeWithHeaders, hs.structured, hs.committed, ne_eq, not_true_eq_false, if_false,
      hlocks, hap, hf]

theorem authoritativeTransactionVerifier_iff (b : Block) (parentUtxo : UtxoSet) :
    authoritativeTransactionVerifier H b parentUtxo = .ok () ↔
      ∃ fees, SoundBlock H b parentUtxo fees ∧ Timely b (coinbaseHeight b) 0 fees := by
  have hmtp : calculateMedianTimePast [] ([] : List BlockHeader).length = 0 := rfl
  rw [← hmtp, ← authoritative_iff, authoritativeTransactionVerifier, validateBlockAuthoritative]
  cases validateBlockAuthoritativeWithHeaders H b (coinbaseHeight b) parentUtxo [] <;> simp

/-- For every block, height, parent state and list of parent headers. -/
theorem height_agreement_iff (H : Hasher) (b : Block) (height : UInt64) (parentUtxo : UtxoSet)
    (headers : List BlockHeader) :
    (authoritativeTransactionVerifier H b parentUtxo = .ok () ↔
      ∃ f, validateBlockAuthoritativeWithHeaders H b height parentUtxo headers = .ok f) ↔
    ∀ fees, SoundBlock H b parentUtxo fees →
      (Timely b (coinbaseHeight b) 0 fees ↔ Timely b height (calculateMedianTimePast headers headers.length) fees) := by
  rw [authoritativeTransactionVerifier_iff, authoritative_iff]
  constructor
  · intro h fees hs
    constructor
    · intro ht
      obtain ⟨fees', hs', ht'⟩ := h.mp ⟨fees, hs, ht⟩
      rwa [hs.fees_eq hs']
    · intro ht
      obtain ⟨fees', hs', ht'⟩ := h.mpr ⟨fees, hs, ht⟩
      rwa [hs.fees_eq hs']
  · intro h
    constructor
    · rintro ⟨fees, hs, ht⟩
      exact ⟨fees, hs, (h fees hs).mp ht⟩
    · rintro ⟨fees, hs, ht⟩
      exact ⟨fees, hs, (h fees hs).mpr ht⟩

/-- The verdicts agree on a block that names its height and locks nothing by time. -/
theorem height_agreement_of_named {b : Block} {height : UInt64} (hnamed : coinbaseHeight b = height)
    (htimes : ∀ tx ∈ b.transactions.tail, tx.locked = true → tx.lockTime < 500000000) (parentUtxo : UtxoSet)
    (headers : List BlockHeader) : authoritativeTransactionVerifier H b parentUtxo = .ok () ↔
      ∃ f, validateBlockAuthoritativeWithHeaders H b height parentUtxo headers = .ok f := by
  rw [authoritativeTransactionVerifier_iff, authoritative_iff, hnamed]
  refine exists_congr fun fees => and_congr_right fun _ => ?_
  exact ⟨fun ht => ⟨ht.heightLocks, fun tx htx hl hk => absurd (htimes tx htx hl) hk, ht.reward⟩,
    fun ht => ⟨ht.heightLocks, fun tx htx hl hk => absurd (htimes tx htx hl) hk, ht.reward⟩⟩

/-- A block of height 1 whose coinbase names the height of the first halving, and takes the
    subsidy of height 1. -/
def halvingBlock (H : Hasher) : Block :=
  mined H Hash256.zero UtxoSet.new 1 60 [Transaction.newCoinbase 660000 [⟨2500000000, [0x51]⟩]]

set_option maxRecDepth 10000 in
/-- The first check takes it, the second finds its reward twice too high. -/
theorem claimed_height_refused : let b := halvingBlock Blake3.digest
    ¬(authoritativeTransactionVerifier Blake3.digest b UtxoSet.new = .ok () ↔
      ∃ f, validateBlockAuthoritativeWithHeaders Blake3.digest b 1 UtxoSet.new [] = .ok f) := by
  intro b h
  have hrun : validateBlockAuthoritativeWithHeaders Blake3.digest b 1 UtxoSet.new [] = .ok 0 ∧
      authoritativeTransactionVerifier Blake3.digest b UtxoSet.new ≠ .ok () := by decide +kernel
  exact hrun.2 (h.mpr ⟨0, hrun.1⟩)

end Scytale
