/-
  Scytale.Consensus.Subsidy — the emission schedule (crates/scytale-consensus/src/lib.rs).

  - `subsidy_toNat`: the subsidy is the initial one halved once per interval, with no
    special case at the end.
  - `emission_le`: all the subsidies of any number of heights stay within the half of the
    maximum supply that is mined.
-/
import Scytale.Primitives

namespace Scytale

def coin : UInt64 := 100000000

def maxSupply : UInt64 := 66000000 * coin

def initialSubsidy : UInt64 := 25 * coin

def halvingInterval : UInt64 := 660000

def getBlockSubsidy (height : UInt64) : UInt64 :=
  let halvings := height / halvingInterval
  if halvings ≥ 64 then 0 else initialSubsidy >>> halvings

theorem subsidy_toNat (height : UInt64) : (getBlockSubsidy height).toNat = 2500000000 / 2 ^ (height.toNat / 660000) := by
  have hdiv : (height / halvingInterval).toNat = height.toNat / 660000 := by rw [UInt64.toNat_div]; rfl
  have h64 : (64 : UInt64).toNat = 64 := rfl
  simp only [getBlockSubsidy]
  split
  · rename_i h
    have h := UInt64.le_iff_toNat_le.mp h
    rw [hdiv, h64] at h
    have hp : 2 ^ 64 ≤ 2 ^ (height.toNat / 660000) := Nat.pow_le_pow_right (by decide) h
    rw [Nat.div_eq_of_lt (by omega)]
    rfl
  · rename_i h
    have h : height.toNat / 660000 < 64 := by
      rw [← hdiv, ← h64]
      exact UInt64.lt_iff_toNat_lt.mp (UInt64.not_le.mp h)
    rw [UInt64.toNat_shiftRight, hdiv, Nat.mod_eq_of_lt h, Nat.shiftRight_eq_div_pow]
    rfl

/-- The subsidies of heights 1 to `n`. -/
def emission (n : Nat) : Nat := ∑ k ∈ Finset.range n, (getBlockSubsidy (UInt64.ofNat (k + 1))).toNat

theorem emission_succ (n : Nat) : emission (n + 1) = emission n + (getBlockSubsidy (UInt64.ofNat (n + 1))).toNat :=
  Finset.sum_range_succ _ n

/-- A sum that is constant over intervals of one length. -/
theorem sum_by_interval (f : Nat → Nat) {m : Nat} (hm : 0 < m) (n : Nat) :
    ∑ k ∈ Finset.range (m * n), f (k / m) = m * ∑ j ∈ Finset.range n, f j := by
  induction n with
  | zero => simp
  | succ n ih =>
    have hlast : ∑ k ∈ Finset.range m, f ((m * n + k) / m) = m * f n := by
      rw [Finset.sum_congr rfl fun k hk => ?_, Finset.sum_const, Finset.card_range, smul_eq_mul]
      rw [Nat.mul_add_div hm, Nat.div_eq_of_lt (Finset.mem_range.mp hk), Nat.add_zero]
    rw [Nat.mul_succ, Finset.sum_range_add, ih, hlast, Finset.sum_range_succ, Nat.mul_add]

theorem emission_le {n : Nat} (hn : n < 2 ^ 64) : emission n ≤ 3300000000000000 := by
  have hterm : ∀ k ∈ Finset.range n,
      (getBlockSubsidy (UInt64.ofNat (k + 1))).toNat = 2500000000 / 2 ^ ((k + 1) / 660000) := by
    intro k hk
    have := Finset.mem_range.mp hk
    rw [subsidy_toNat, UInt64.toNat_ofNat', Nat.mod_eq_of_lt (by omega)]
  calc emission n = ∑ k ∈ Finset.range n, 2500000000 / 2 ^ ((k + 1) / 660000) := Finset.sum_congr rfl hterm
    _ ≤ ∑ k ∈ Finset.range (n + 1), 2500000000 / 2 ^ (k / 660000) := by
        rw [Finset.sum_range_succ']
        exact Nat.le_add_right _ _
    _ ≤ ∑ k ∈ Finset.range (660000 * (n + 1)), 2500000000 / 2 ^ (k / 660000) :=
        Finset.sum_le_sum_of_subset (Finset.range_subset_range.mpr (by omega))
    _ = 660000 * ∑ j ∈ Finset.range (n + 1), 2500000000 / 2 ^ j :=
        sum_by_interval (fun j => 2500000000 / 2 ^ j) (by decide) (n + 1)
    _ ≤ 660000 * (2500000000 * 2 / (2 - 1)) := Nat.mul_le_mul_left _ (Nat.geom_sum_le (Nat.le_refl 2) _ _)
    _ = 3300000000000000 := by norm_num

end Scytale
