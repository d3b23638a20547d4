/-
  Scytale.Consensus.Work — block work and cumulative work
  (crates/scytale-consensus/src/work.rs).

  - `checkedAdd_val`: addition of 256-bit work is exact, or refused.
  - `div256_val`: the long division is the quotient, for every divisor but zero.
  - `blockWork_val`: the work of a target is `2 ^ 256 / (target + 1)`, for every target but
    zero, whose work wraps around to zero (`blockWork_zero`).
  - `blockWork_pos`: no other target has zero work.
  - `blockWork_formula`: the quotient, at least one and antitone in the target.
-/
import Scytale.Lib.LongDivision
import Scytale.Consensus.Target

namespace Scytale

open Lib

/-- `CumulativeWork([u64; 4])`, big-endian limbs. -/
structure CumulativeWork where
  limbs : List UInt64
  size : limbs.length = 4
  deriving DecidableEq

namespace CumulativeWork

def zero : CumulativeWork := ⟨[0, 0, 0, 0], rfl⟩

/-- The derived order: limb by limb from the most significant. -/
def le (a b : CumulativeWork) : Bool := !decide (b.limbs < a.limbs)

def checkedAdd (a b : CumulativeWork) : Option CumulativeWork :=
  if (limbRadix.addC a.limbs b.limbs 0).2 > 0 then none
  else some ⟨(limbRadix.addC a.limbs b.limbs 0).1, by
    rw [limbRadix.addC_length _ _ _ (by rw [a.size, b.size]), a.size]⟩

def val (w : CumulativeWork) : Nat := limbVal w.limbs

theorem val_lt (w : CumulativeWork) : w.val < 2 ^ 256 := by
  have := limbVal_lt w.limbs
  rw [w.size] at this
  exact this

theorem val_inj {a b : CumulativeWork} (h : a.val = b.val) : a = b := by
  obtain ⟨x, hx⟩ := a
  obtain ⟨y, hy⟩ := b
  have : x = y := limbVal_inj (by rw [hx, hy]) h
  subst this
  rfl

theorem le_iff (a b : CumulativeWork) : a.le b = true ↔ a.val ≤ b.val := by
  rw [le, Bool.not_eq_true', decide_eq_false_iff_not, limbs_lt_iff (by rw [a.size, b.size]), Nat.not_lt]
  rfl

theorem checkedAdd_val {a b c : CumulativeWork} (h : a.checkedAdd b = some c) : c.val = a.val + b.val := by
  unfold checkedAdd at h
  split at h
  · cases h
  · rename_i hc
    cases h
    have hv := limbRadix.addC_value a.limbs b.limbs 0 (by rw [a.size, b.size])
    rw [Nat.eq_zero_of_not_pos hc, Nat.zero_mul] at hv
    exact hv

theorem checkedAdd_eq_none {a b : CumulativeWork} (h : a.checkedAdd b = none) : 2 ^ 256 ≤ a.val + b.val := by
  unfold checkedAdd at h
  split at h
  · rename_i hc
    have hv := limbRadix.addC_value a.limbs b.limbs 0 (by rw [a.size, b.size])
    have h1 : 1 * limbRadix.base ^ a.limbs.length ≤
        (limbRadix.addC a.limbs b.limbs 0).2 * limbRadix.base ^ a.limbs.length := Nat.mul_le_mul_right _ hc
    rw [a.size] at h1 hv
    have h2 : limbRadix.base ^ 4 = 2 ^ 256 := by decide
    rw [h2] at h1 hv
    change _ = a.val + b.val + 0 at hv
    omega
  · cases h

end CumulativeWork

/-- Bit-by-bit long division. -/
def div256 (num den : List UInt64) : List UInt64 :=
  if den = [0, 0, 0, 0] then List.replicate 4 0xffffffffffffffff
  else if num < den then [0, 0, 0, 0]
  else if num = den then [0, 0, 0, 1]
  else (LongDivision.divLoop 3 num den 256 ([0, 0, 0, 0], [0, 0, 0, 0])).1

/-- The target's four limbs. -/
def Target.limbs (t : Target) : List UInt64 := chunkLimbs 4 t.bytes

/-- `2 ^ 256 / (target + 1)`, computed as `!target / (target + 1) + 1`; both additions
    drop the carry out of the first limb. -/
def blockWork (t : Target) : CumulativeWork :=
  let tPlus1 := limbRadix.incC t.limbs 1
  if tPlus1.2 > 0 then ⟨[0, 0, 0, 1], rfl⟩
  else
    let notT := t.limbs.map fun l => ~~~l
    let res := (limbRadix.incC (div256 notT tPlus1.1) 1).1
    if h : res.length = 4 then ⟨res, h⟩ else CumulativeWork.zero

/-! ## The division -/

theorem div256_length {num den : List UInt64} (hn : num.length = 4) (hd : den.length = 4) :
    (div256 num den).length = 4 := by
  unfold div256
  split
  · rfl
  · split
    · rfl
    · split
      · rfl
      · rename_i h0 _ _
        have hpos : 0 < limbVal den := by
          refine Nat.pos_of_ne_zero fun e => h0 (limbVal_inj (by rw [hd]; rfl) ?_)
          rw [e]
          decide
        exact (LongDivision.divLoop_quot hn hd hpos).1

theorem div256_val {num den : List UInt64} (hn : num.length = 4) (hd : den.length = 4) (hpos : 0 < limbVal den) :
    limbVal (div256 num den) = limbVal num / limbVal den := by
  have hne : den ≠ [0, 0, 0, 0] := by
    rintro rfl
    exact absurd hpos (by decide)
  unfold div256
  rw [if_neg hne]
  split
  · rename_i hlt
    rw [limbs_lt_iff (by rw [hn, hd])] at hlt
    rw [Nat.div_eq_of_lt hlt]
    decide
  · split
    · rename_i heq
      rw [heq, Nat.div_self hpos]
      decide
    · exact (LongDivision.divLoop_quot hn hd hpos).2

/-! ## Block work -/

theorem Target.limbs_length (t : Target) : t.limbs.length = 4 := chunkLimbs_length 4 t.bytes

theorem Target.limbs_val (t : Target) : limbVal t.limbs = t.val := limbVal_chunkLimbs 4 t.bytes t.size

theorem limbVal_not (ls : List UInt64) : limbVal (ls.map fun l => ~~~l) + limbVal ls + 1 = (2 ^ 64) ^ ls.length := by
  induction ls with
  | nil => rfl
  | cons l ls ih =>
    have hl : (~~~l).toNat + l.toNat + 1 = 2 ^ 64 := by
      have := l.toNat_lt
      rw [UInt64.toNat_not, UInt64.size]
      omega
    simp only [List.map_cons, limbVal_cons, List.length_map, List.length_cons, Nat.pow_succ]
    linear_combination (2 ^ 64) ^ ls.length * hl + ih

/-- Incrementing four limbs drops what does not fit. -/
theorem inc_val {ls : List UInt64} (h : ls.length = 4) :
    limbVal (limbRadix.incC ls 1).1 = (limbVal ls + 1) % 2 ^ 256 ∧
      ((limbRadix.incC ls 1).2 > 0 ↔ limbVal ls + 1 = 2 ^ 256) := by
  have hv : limbVal (limbRadix.incC ls 1).1 + (limbRadix.incC ls 1).2 * limbRadix.base ^ ls.length = limbVal ls + 1 :=
    limbRadix.incC_value ls 1
  have hlt := limbVal_lt (limbRadix.incC ls 1).1
  have hls := limbVal_lt ls
  have hb : limbRadix.base ^ 4 = 2 ^ 256 := by decide
  have hp : (2 ^ 64 : Nat) ^ 4 = 2 ^ 256 := by decide
  rw [limbRadix.incC_length, h, hp] at hlt
  rw [h, hp] at hls
  rw [h, hb] at hv
  constructor
  · rw [← hv, Nat.add_mul_mod_self_right, Nat.mod_eq_of_lt hlt]
  · constructor
    · intro hc
      have := Nat.mul_le_mul_right (2 ^ 256) (show 1 ≤ (limbRadix.incC ls 1).2 from hc)
      omega
    · intro he
      by_contra hc
      rw [Nat.eq_zero_of_not_pos hc] at hv
      omega

theorem blockWork_eq (t : Target) : (blockWork t).val =
    if t.val + 1 = 2 ^ 256 then 1 else ((2 ^ 256 - 1 - t.val) / (t.val + 1) + 1) % 2 ^ 256 := by
  have hlen := t.limbs_length
  have hval := t.limbs_val
  have ht := t.val_lt
  obtain ⟨h1, h2⟩ := inc_val hlen
  rw [hval] at h1 h2
  have hnotlen : (t.limbs.map fun l => ~~~l).length = 4 := by rw [List.length_map, hlen]
  have hnot : limbVal (t.limbs.map fun l => ~~~l) = 2 ^ 256 - 1 - t.val := by
    have := limbVal_not t.limbs
    rw [hlen, hval] at this
    have hp : (2 ^ 64 : Nat) ^ 4 = 2 ^ 256 := by decide
    omega
  have hinclen : (limbRadix.incC t.limbs 1).1.length = 4 := by rw [limbRadix.incC_length, hlen]
  unfold blockWork
  by_cases hm : t.val + 1 = 2 ^ 256
  · simp only [h2.mpr hm, if_true, hm]
    decide
  · have hc : ¬ (limbRadix.incC t.limbs 1).2 > 0 := fun h => hm (h2.mp h)
    rw [Nat.mod_eq_of_lt (by omega)] at h1
    have hdlen := div256_length hnotlen hinclen
    have hdval := div256_val hnotlen hinclen (by omega)
    have hreslen : (limbRadix.incC (div256 (t.limbs.map fun l => ~~~l) (limbRadix.incC t.limbs 1).1) 1).1.length = 4 := by
      rw [limbRadix.incC_length, hdlen]
    simp only [hc, if_false, hm, dif_pos hreslen]
    rw [CumulativeWork.val, (inc_val hdlen).1, hdval, hnot, h1]

/-- The work of a target above zero. -/
theorem blockWork_val {t : Target} (h : 0 < t.val) : (blockWork t).val = 2 ^ 256 / (t.val + 1) := by
  have ht := t.val_lt
  rw [blockWork_eq]
  split
  · rename_i hm
    rw [hm, Nat.div_self (by decide)]
  · rename_i hm
    have hq : (2 ^ 256 - 1 - t.val) / (t.val + 1) + 1 = 2 ^ 256 / (t.val + 1) := by
      rw [← Nat.add_div_right _ (by omega : 0 < t.val + 1)]
      congr 1
      omega
    rw [hq, Nat.mod_eq_of_lt]
    calc 2 ^ 256 / (t.val + 1) ≤ 2 ^ 256 / 2 := Nat.div_le_div_left (by omega) (by decide)
      _ < 2 ^ 256 := by decide

/-- The work of the zero target does not fit and wraps around. -/
theorem blockWork_zero {t : Target} (h : t.val = 0) : (blockWork t).val = 0 := by
  rw [blockWork_eq, h]
  decide

theorem blockWork_pos {t : Target} (h : 0 < t.val) : 0 < (blockWork t).val := by
  have ht := t.val_lt
  rw [blockWork_val h]
  exact Nat.div_pos (by omega) (by omega)

/-- An easier target stands for no more work. -/
theorem blockWork_antitone {t t' : Target} (h : 0 < t.val) (hle : t.val ≤ t'.val) :
    (blockWork t').val ≤ (blockWork t).val := by
  rw [blockWork_val h, blockWork_val (Nat.lt_of_lt_of_le h hle)]
  exact Nat.div_le_div_left (by omega) (by omega)

theorem blockWork_formula :
    (∀ num den : List UInt64, num.length = 4 → den.length = 4 → den ≠ [0, 0, 0, 0] →
      (div256 num den).length = 4 ∧ limbVal (div256 num den) = limbVal num / limbVal den) ∧
    (∀ t : Target, 1 ≤ t.val → (blockWork t).val = 2 ^ 256 / (t.val + 1) ∧ 1 ≤ (blockWork t).val) ∧
    ∀ t t' : Target, 1 ≤ t.val → t.val ≤ t'.val → (blockWork t').le (blockWork t) = true := by
  refine ⟨fun num den hn hd h0 => ?_, fun t h => ⟨blockWork_val h, blockWork_pos h⟩, fun t t' h hle => ?_⟩
  · have hpos : 0 < limbVal den :=
      Nat.pos_of_ne_zero fun e => h0 (limbVal_inj (by rw [hd]; rfl) (by rw [e]; decide))
    exact ⟨div256_length hn hd, div256_val hn hd hpos⟩
  · exact (CumulativeWork.le_iff _ _).mpr (blockWork_antitone h hle)

/-- The hardest target of which the work still fits. -/
theorem blockWork_formula_one :
    (blockWork ⟨List.replicate 31 0 ++ [1], by simp⟩).val = 2 ^ 256 / 2 ∧
      1 ≤ (blockWork ⟨List.replicate 31 0 ++ [1], by simp⟩).val :=
  blockWork_formula.2.1 ⟨List.replicate 31 0 ++ [1], by simp⟩ (by decide)

end Scytale
