/-
  Scytale.Consensus.Difficulty — retargeting (crates/scytale-consensus/src/difficulty.rs).

  - `scaleTargetByRatio_val`: the scaled target is the quotient of the product, capped at
    256 bits.
  - `retarget_formula`: the next target is the quotient for the clamped time, capped at the
    configured maximum, and monotone in the target and in the observed time.
  - `nextTarget_val`: the same under the default configuration.
-/
import Scytale.Consensus.Target

namespace Scytale

open Lib

def targetBlockIntervalSecs : UInt64 := 60

/-- One day at 60 second intervals. -/
def defaultDifficultyEpochBlocks : UInt64 := 1440

def clampingFactor : UInt64 := 4

structure DifficultyConfig where
  epochBlocks : UInt64
  targetBlockIntervalSecs : UInt64
  clampingFactor : UInt64
  maxTarget : Target

def DifficultyConfig.default : DifficultyConfig :=
  ⟨defaultDifficultyEpochBlocks, Scytale.targetBlockIntervalSecs, Scytale.clampingFactor,
    ⟨[0, 0, 0x0f] ++ List.replicate 29 0xff, by simp⟩⟩

inductive DifficultyError where
  | targetMismatch (expected actual : Target)
  | invalidObservedTime (startTime endTime : UInt64)
  | arithmeticOverflow
  deriving DecidableEq

/-- `u64::checked_mul`. -/
def checkedMul (a b : UInt64) : Option UInt64 := if a.toNat * b.toNat < 2 ^ 64 then some (a * b) else none

/-- `Ord::clamp`. -/
def clamp (x lo hi : UInt64) : UInt64 := if x < lo then lo else if hi < x then hi else x

/-- The five limbs of the product divided by the divisor. -/
def scaledLimbs (t : Target) (multiplier divisor : UInt64) : List UInt64 :=
  let prod := limbRadix.mulWord multiplier.toNat (chunkLimbs 4 t.bytes)
  (limbRadix.divWord divisor.toNat 0 (UInt64.ofNat prod.2 :: prod.1)).1

def scaleTargetByRatio (t : Target) (multiplier divisor : UInt64) : Except DifficultyError Target :=
  if divisor = 0 then .error .arithmeticOverflow
  else if multiplier = 0 then .ok Target.zero
  else match scaledLimbs t multiplier divisor with
    | [q0, q1, q2, q3, q4] => if q0 > 0 then .ok Target.max else .ok ⟨limbBytes [q1, q2, q3, q4], by simp⟩
    | _ => .error .arithmeticOverflow

def calculateNextTarget (current : Target) (epochStartTime epochEndTime : UInt64) (config : DifficultyConfig) :
    Except DifficultyError Target :=
  if epochEndTime ≤ epochStartTime then .error (.invalidObservedTime epochStartTime epochEndTime)
  else match checkedMul config.epochBlocks config.targetBlockIntervalSecs with
    | none => .error .arithmeticOverflow
    | some expectedTime =>
      if expectedTime = 0 ∨ config.clampingFactor = 0 then .error .arithmeticOverflow
      else
        let minTime := expectedTime / config.clampingFactor
        match checkedMul expectedTime config.clampingFactor with
        | none => .error .arithmeticOverflow
        | some maxTime =>
          match scaleTargetByRatio current (clamp (epochEndTime - epochStartTime) minTime maxTime) expectedTime with
          | .error e => .error e
          | .ok calculated =>
            if config.maxTarget.bytes < calculated.bytes then .ok config.maxTarget else .ok calculated

/-- The header names exactly the expected target. -/
def validateBlockTarget (header : BlockHeader) (expected : Target) : Except DifficultyError Unit :=
  if Target.fromCompact header.difficultyTarget ≠ expected then
    .error (.targetMismatch expected (Target.fromCompact header.difficultyTarget))
  else .ok ()

/-! ## What is computed -/

theorem scaledLimbs_length (t : Target) (m d : UInt64) : (scaledLimbs t m d).length = 5 := by
  simp [scaledLimbs, limbRadix.divWord_length, limbRadix.mulWord_length]

theorem scaledLimbs_val (t : Target) {m d : UInt64} (hm : m ≠ 0) (hd : d ≠ 0) :
    limbVal (scaledLimbs t m d) = t.val * m.toNat / d.toNat := by
  have hm' : 0 < m.toNat := Nat.pos_of_ne_zero fun e => hm (UInt64.toNat_inj.mp e)
  have hd' : 0 < d.toNat := Nat.pos_of_ne_zero fun e => hd (UInt64.toNat_inj.mp e)
  have hprod := limbRadix.mulWord_value m.toNat (chunkLimbs 4 t.bytes)
  have hcarry := limbRadix.mulWord_carry hm' (chunkLimbs 4 t.bytes)
  have hlt := m.toNat_lt
  have hval : limbRadix.value (chunkLimbs 4 t.bytes) = t.val := limbVal_chunkLimbs 4 t.bytes t.size
  show limbRadix.value _ = _
  rw [scaledLimbs, limbRadix.divWord_quot hd', Radix.value_cons, limbRadix.mulWord_length]
  have hc : limbRadix.val (UInt64.ofNat (limbRadix.mulWord m.toNat (chunkLimbs 4 t.bytes)).2) =
      (limbRadix.mulWord m.toNat (chunkLimbs 4 t.bytes)).2 := by
    show (UInt64.ofNat _).toNat = _
    rw [UInt64.toNat_ofNat', Nat.mod_eq_of_lt (by omega)]
  rw [hc, Nat.add_comm, hprod, hval]

/-- The scaled target is the quotient of the product, capped at 256 bits. -/
theorem scaleTargetByRatio_val (t : Target) {m d : UInt64} (hd : d ≠ 0) :
    ∃ r, scaleTargetByRatio t m d = .ok r ∧ r.val = min (t.val * m.toNat / d.toNat) (2 ^ 256 - 1) := by
  unfold scaleTargetByRatio
  rw [if_neg hd]
  by_cases hm : m = 0
  · rw [if_pos hm]
    refine ⟨_, rfl, ?_⟩
    rw [Target.zero_val, hm]
    simp
  · rw [if_neg hm]
    have hlen := scaledLimbs_length t m d
    have hval := scaledLimbs_val t hm hd
    match hq : scaledLimbs t m d, hlen with
    | [q0, q1, q2, q3, q4], _ =>
      rw [hq, limbVal_cons] at hval
      have hlow := limbVal_lt [q1, q2, q3, q4]
      simp only [List.length_cons, List.length_nil, Nat.zero_add, Nat.reduceAdd] at hval hlow
      have hp : (2 ^ 64 : Nat) ^ 4 = 2 ^ 256 := by decide
      rw [hp] at hval hlow
      by_cases h0 : q0 > 0
      · have hpos : 1 ≤ q0.toNat := UInt64.lt_iff_toNat_lt.mp h0
        have := Nat.mul_le_mul_right (2 ^ 256) hpos
        simp only [h0, if_true]
        refine ⟨_, rfl, ?_⟩
        rw [Target.max_val]
        omega
      · have hz : q0.toNat = 0 := by
          by_contra hne
          exact h0 (UInt64.lt_iff_toNat_lt.mpr (Nat.pos_of_ne_zero hne))
        simp only [h0, if_false]
        refine ⟨_, rfl, ?_⟩
        rw [Target.val, byteVal_limbBytes]
        rw [hz] at hval
        omega

/-! ## The retarget formula -/

theorem checkedMul_of_lt {a b : UInt64} (h : a.toNat * b.toNat < 2 ^ 64) :
    ∃ m, checkedMul a b = some m ∧ m.toNat = a.toNat * b.toNat := by
  refine ⟨a * b, if_pos h, ?_⟩
  rw [UInt64.toNat_mul, Nat.mod_eq_of_lt h]

theorem clamp_toNat {x lo hi : UInt64} (h : lo.toNat ≤ hi.toNat) :
    (clamp x lo hi).toNat = max lo.toNat (min x.toNat hi.toNat) := by
  unfold clamp
  split
  · rename_i h1
    have := UInt64.lt_iff_toNat_lt.mp h1
    omega
  · rename_i h1
    rw [UInt64.lt_iff_toNat_lt] at h1
    split
    · rename_i h2
      have := UInt64.lt_iff_toNat_lt.mp h2
      omega
    · rename_i h2
      rw [UInt64.lt_iff_toNat_lt] at h2
      omega

namespace DifficultyConfig

variable (config : DifficultyConfig)

/-- The seconds an epoch is meant to take. -/
def expectedTime : Nat := config.epochBlocks.toNat * config.targetBlockIntervalSecs.toNat

/-- An observed time kept within the clamping factor of the expected one. -/
def clampObserved (observed : Nat) : Nat :=
  max (config.expectedTime / config.clampingFactor.toNat)
    (min observed (config.expectedTime * config.clampingFactor.toNat))

/-- The target the formula gives, in unbounded numbers up to the two caps. -/
def retargeted (target observed : Nat) : Nat :=
  min config.maxTarget.val (min (target * config.clampObserved observed / config.expectedTime) (2 ^ 256 - 1))

variable {config}

theorem clampObserved_mono {o o' : Nat} (h : o ≤ o') : config.clampObserved o ≤ config.clampObserved o' := by
  unfold clampObserved
  omega

theorem retargeted_mono {t t' o o' : Nat} (ht : t ≤ t') (ho : o ≤ o') :
    config.retargeted t o ≤ config.retargeted t' o' := by
  have hmul : t * config.clampObserved o ≤ t' * config.clampObserved o' := Nat.mul_le_mul ht (clampObserved_mono ho)
  have hdiv := Nat.div_le_div_right (c := config.expectedTime) hmul
  unfold retargeted
  omega

end DifficultyConfig

/-- The bytes of a target are compared as numbers. -/
theorem Target.bytes_lt_iff (a b : Target) : a.bytes < b.bytes ↔ a.val < b.val :=
  byteRadix.lt_iff_value (by rw [a.size, b.size])

theorem calculateNextTarget_val (config : DifficultyConfig) (hE : 0 < config.expectedTime)
    (hc : 0 < config.clampingFactor.toNat) (hfit : config.expectedTime * config.clampingFactor.toNat < 2 ^ 64)
    (current : Target) {start fin : UInt64} (h : start < fin) :
    ∃ r, calculateNextTarget current start fin config = .ok r ∧
      r.val = config.retargeted current.val (fin.toNat - start.toNat) := by
  have hE64 : config.expectedTime < 2 ^ 64 := Nat.lt_of_le_of_lt (Nat.le_mul_of_pos_right _ hc) hfit
  obtain ⟨e, he, hev⟩ := checkedMul_of_lt hE64
  rw [← DifficultyConfig.expectedTime] at hev
  obtain ⟨m, hm, hmv⟩ := checkedMul_of_lt (a := e) (b := config.clampingFactor) (by rw [hev]; exact hfit)
  rw [hev] at hmv
  have he0 : e ≠ 0 := fun h0 => by rw [h0] at hev; exact absurd hev (Nat.ne_of_lt hE)
  have hc0 : config.clampingFactor ≠ 0 := fun h0 => by rw [h0] at hc; exact absurd hc (Nat.lt_irrefl 0)
  have hlow : (e / config.clampingFactor).toNat = config.expectedTime / config.clampingFactor.toNat := by
    rw [UInt64.toNat_div, hev]
  have hordered : (e / config.clampingFactor).toNat ≤ m.toNat := by
    rw [hlow, hmv]
    exact Nat.le_trans (Nat.div_le_self _ _) (Nat.le_mul_of_pos_right _ hc)
  have hclamp : (clamp (fin - start) (e / config.clampingFactor) m).toNat =
      config.clampObserved (fin.toNat - start.toNat) := by
    rw [clamp_toNat hordered, hlow, hmv, UInt64.toNat_sub_of_le _ _ (UInt64.le_of_lt h)]
    rfl
  obtain ⟨c, hs, hsv⟩ := scaleTargetByRatio_val current (m := clamp (fin - start) (e / config.clampingFactor) m) he0
  rw [hclamp, hev] at hsv
  have hcalc : calculateNextTarget current start fin config =
      if config.maxTarget.bytes < c.bytes then .ok config.maxTarget else .ok c := by
    simp only [calculateNextTarget, if_neg (UInt64.not_le.mpr h), he, he0, hc0, or_self, if_false, hm, hs]
  have hcmp := config.maxTarget.bytes_lt_iff c
  rw [hcalc, DifficultyConfig.retargeted, ← hsv]
  by_cases hb : config.maxTarget.bytes < c.bytes
  · have := hcmp.mp hb
    exact ⟨_, if_pos hb, by omega⟩
  · have hnot : ¬ config.maxTarget.val < c.val := fun h => hb (hcmp.mpr h)
    exact ⟨_, if_neg hb, by omega⟩

/-- Retargeting computes the quotient exactly, under every configuration whose clamping
    bounds fit in 64 bits, and an easier target or a longer epoch never gives a harder one. -/
theorem retarget_formula (config : DifficultyConfig) (hE : 0 < config.expectedTime)
    (hc : 0 < config.clampingFactor.toNat) (hfit : config.expectedTime * config.clampingFactor.toNat < 2 ^ 64) :
    (∀ (T : Target) (start fin : UInt64), start < fin →
      ∃ r, calculateNextTarget T start fin config = .ok r ∧
        r.val = min config.maxTarget.val (min
          (T.val * max (config.expectedTime / config.clampingFactor.toNat)
            (min (fin.toNat - start.toNat) (config.expectedTime * config.clampingFactor.toNat))
              / config.expectedTime) (2 ^ 256 - 1))) ∧
    (∀ (T : Target) (m d : UInt64), d ≠ 0 →
      ∃ r, scaleTargetByRatio T m d = .ok r ∧ r.val = min (T.val * m.toNat / d.toNat) (2 ^ 256 - 1)) ∧
    (∀ (T T' : Target) (start fin start' fin' : UInt64) (r r' : Target), T.val ≤ T'.val →
      fin.toNat - start.toNat ≤ fin'.toNat - start'.toNat →
      calculateNextTarget T start fin config = .ok r → calculateNextTarget T' start' fin' config = .ok r' →
      r.val ≤ r'.val) := by
  refine ⟨fun T start fin h => calculateNextTarget_val config hE hc hfit T h,
    fun T m d hd => scaleTargetByRatio_val T hd, ?_⟩
  intro T T' start fin start' fin' r r' hT hobs hr hr'
  have hlt : ∀ {T s f r}, calculateNextTarget T s f config = .ok r → s < f := by
    intro T s f r h
    by_contra hle
    rw [calculateNextTarget, if_pos (UInt64.not_lt.mp hle)] at h
    cases h
  obtain ⟨x, hx, hxv⟩ := calculateNextTarget_val config hE hc hfit T (hlt hr)
  obtain ⟨y, hy, hyv⟩ := calculateNextTarget_val config hE hc hfit T' (hlt hr')
  rw [hr] at hx
  rw [hr'] at hy
  cases hx
  cases hy
  rw [hxv, hyv]
  exact DifficultyConfig.retargeted_mono hT hobs

/-- The default configuration, whose expected time is a day. -/
theorem retarget_formula_default :
    ∃ r, calculateNextTarget Target.max 0 43200 DifficultyConfig.default = .ok r ∧
      r.val = min DifficultyConfig.default.maxTarget.val
        (min (Target.max.val * max (86400 / 4) (min 43200 (86400 * 4)) / 86400) (2 ^ 256 - 1)) :=
  (retarget_formula DifficultyConfig.default (by decide) (by decide) (by decide)).1 Target.max 0 43200 (by decide)

/-- The observed time kept between a quarter of a day and four days. -/
def clampedTime (epochStartTime epochEndTime : Nat) : Nat := max 21600 (min (epochEndTime - epochStartTime) 345600)

/-- The easiest target retargeting allows. -/
def maxRetarget : Nat := 2 ^ 236 - 1

theorem nextTarget_val (current : Target) {start fin : UInt64} (h : start < fin) :
    ∃ r, calculateNextTarget current start fin DifficultyConfig.default = .ok r ∧
      r.val = min (current.val * clampedTime start.toNat fin.toNat / 86400) maxRetarget := by
  obtain ⟨r, hr, hv⟩ :=
    calculateNextTarget_val DifficultyConfig.default (by decide) (by decide) (by decide) current h
  refine ⟨r, hr, ?_⟩
  have hmax : DifficultyConfig.default.maxTarget.val = maxRetarget := by decide
  have hE : DifficultyConfig.default.expectedTime = 86400 := by decide
  have hobs : DifficultyConfig.default.clampObserved (fin.toNat - start.toNat) =
      clampedTime start.toNat fin.toNat := rfl
  have hle : maxRetarget ≤ 2 ^ 256 - 1 := by decide
  rw [hv, DifficultyConfig.retargeted, hmax, hE, hobs]
  omega

theorem validateBlockTarget_ok {header : BlockHeader} {expected : Target} :
    validateBlockTarget header expected = .ok () ↔ Target.fromCompact header.difficultyTarget = expected := by
  unfold validateBlockTarget
  by_cases h : Target.fromCompact header.difficultyTarget = expected
  · simp [h]
  · simp [h]

end Scytale
