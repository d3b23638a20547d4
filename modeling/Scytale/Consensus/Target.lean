/-
  Scytale.Consensus.Target — proof-of-work targets and their compact form
  (crates/scytale-consensus/src/target.rs, pow.rs).

  - `fromCompact_val`: the number a compact field stands for.
  - `fromCompact_surj_iff`: the targets a header can name are 23-bit mantissas times a
    power of 256, and the maximum.
-/
import Scytale.Core.Block

namespace Scytale

open Lib

/-- `Target([u8; 32])`, big-endian. -/
structure Target where
  bytes : Bytes
  size : bytes.length = 32

namespace Target

theorem ext_bytes : ∀ {a b : Target}, a.bytes = b.bytes → a = b
  | ⟨_, _⟩, ⟨_, _⟩, rfl => rfl

instance : DecidableEq Target := fun a b => decidable_of_iff (a.bytes = b.bytes) ⟨ext_bytes, congrArg bytes⟩

def max : Target := ⟨List.replicate 32 0xff, by simp⟩

def zero : Target := ⟨List.replicate 32 0, Hash256.zero.size⟩

/-- Hash and target compared as byte arrays. -/
def isMetBy (t : Target) (h : Hash256) : Bool := h.bytes ≤ t.bytes

def exponent (compact : UInt32) : Nat := (compact >>> 24).toNat

def mantissa (compact : UInt32) : UInt32 := compact &&& 0x007fffff

def isNegative (compact : UInt32) : Bool := compact &&& 0x00800000 != 0

/-- The mantissa's three low bytes, placed at the byte the exponent names. -/
def placed (mantissa : UInt32) (exponent : Nat) : Bytes :=
  List.replicate (32 - exponent) 0 ++ (beBytes 4 mantissa.toNat).drop 1 ++ List.replicate (exponent - 3) 0

def fromCompact (compact : UInt32) : Target :=
  if isNegative compact || mantissa compact == 0 || exponent compact == 0 then zero
  else if exponent compact ≤ 3 then
    ⟨List.replicate 28 0 ++ beBytes 4 (mantissa compact >>> UInt32.ofNat (8 * (3 - exponent compact))).toNat, by simp⟩
  else if h : 3 < exponent compact ∧ exponent compact ≤ 32 then
    ⟨placed (mantissa compact) (exponent compact), by simp [placed]; omega⟩
  else max

/-- The target as a number. -/
def val (t : Target) : Nat := byteVal t.bytes

theorem val_lt (t : Target) : t.val < 2 ^ 256 := by
  have := byteVal_lt t.bytes
  rw [t.size] at this
  exact this

theorem val_inj {a b : Target} (h : a.val = b.val) : a = b := by
  obtain ⟨x, hx⟩ := a
  obtain ⟨y, hy⟩ := b
  have : x = y := byteVal_inj (by rw [hx, hy]) h
  subst this
  rfl

theorem zero_val : zero.val = 0 := byteVal_zeros 32

theorem max_val : max.val = 2 ^ 256 - 1 := by decide

theorem isMetBy_iff (t : Target) (h : Hash256) : t.isMetBy h = true ↔ byteVal h.bytes ≤ t.val := by
  rw [isMetBy, decide_eq_true_iff, bytes_le_iff (by rw [h.size, t.size]), val]

/-! ## The number a compact field stands for -/

theorem exponent_eq (c : UInt32) : exponent c = c.toNat / 2 ^ 24 := by
  rw [exponent, UInt32.toNat_shiftRight]
  show c.toNat >>> 24 = _
  rw [Nat.shiftRight_eq_div_pow]

theorem mantissa_toNat (c : UInt32) : (mantissa c).toNat = c.toNat % 2 ^ 23 := by
  rw [mantissa, UInt32.toNat_and]
  exact Nat.and_two_pow_sub_one_eq_mod c.toNat 23

theorem mantissa_lt (c : UInt32) : (mantissa c).toNat < 2 ^ 23 := by
  rw [mantissa_toNat]
  exact Nat.mod_lt _ (by decide)

theorem isNegative_eq (c : UInt32) : isNegative c = decide (c.toNat / 2 ^ 23 % 2 = 1) := by
  have hand : (c &&& 0x00800000).toNat = (c.toNat.testBit 23).toNat * 2 ^ 23 := by
    rw [UInt32.toNat_and]
    exact Nat.and_two_pow c.toNat 23
  have hbit : c.toNat.testBit 23 = decide (c.toNat / 2 ^ 23 % 2 = 1) := Nat.testBit_eq_decide_div_mod_eq
  rw [← hbit, isNegative]
  cases hb : c.toNat.testBit 23 with
  | false =>
    have : c &&& 0x00800000 = 0 := UInt32.toNat_inj.mp (by rw [hand, hb]; rfl)
    simp [this]
  | true =>
    have : c &&& 0x00800000 ≠ 0 := fun e => by
      rw [e, hb] at hand
      exact absurd hand (by decide)
    simpa using this

/-- The mantissa keeps to its three low bytes. -/
theorem placed_val {m : UInt32} {e : Nat} (hm : m.toNat < 2 ^ 23) : byteVal (placed m e) = m.toNat * 256 ^ (e - 3) := by
  have hsplit : beBytes 4 m.toNat = 0 :: (beBytes 4 m.toNat).drop 1 := by
    have htop : UInt8.ofNat (m.toNat / 256 / 256 / 256) = 0 := by
      rw [Nat.div_div_eq_div_mul, Nat.div_div_eq_div_mul, Nat.div_eq_of_lt (by omega)]
      rfl
    show _ = 0 :: List.drop 1 [UInt8.ofNat (m.toNat / 256 / 256 / 256), _, _, _]
    rw [← htop]
    rfl
  have hv : byteVal ((beBytes 4 m.toNat).drop 1) = m.toNat := by
    have := byteVal_beBytes 4 m.toNat
    rw [hsplit, byteVal_cons, Nat.mod_eq_of_lt (by omega)] at this
    simpa using this
  rw [placed, byteVal_append, byteVal_append, byteVal_zeros, byteVal_zeros, hv, List.length_replicate, Nat.zero_mul,
    Nat.zero_add, Nat.add_zero]

theorem shifted_val {m : UInt32} {e : Nat} (he : e ≤ 3) :
    (m >>> UInt32.ofNat (8 * (3 - e))).toNat = m.toNat / 256 ^ (3 - e) := by
  have hs : (UInt32.ofNat (8 * (3 - e))).toNat % 32 = 8 * (3 - e) := by
    rw [UInt32.toNat_ofNat', Nat.mod_eq_of_lt (by omega), Nat.mod_eq_of_lt (by omega)]
  rw [UInt32.toNat_shiftRight, hs, Nat.shiftRight_eq_div_pow, Nat.pow_mul]

theorem fromCompact_val (c : UInt32) : (fromCompact c).val =
    if isNegative c || mantissa c == 0 || exponent c == 0 then 0
    else if exponent c ≤ 3 then (mantissa c).toNat / 256 ^ (3 - exponent c)
    else if exponent c ≤ 32 then (mantissa c).toNat * 256 ^ (exponent c - 3)
    else 2 ^ 256 - 1 := by
  unfold fromCompact
  have hm := mantissa_lt c
  split
  · exact zero_val
  · split
    · rename_i he
      have hlt : (mantissa c).toNat / 256 ^ (3 - exponent c) ≤ (mantissa c).toNat := Nat.div_le_self _ _
      rw [val, byteVal_append, byteVal_zeros, byteVal_beBytes, shifted_val he, Nat.mod_eq_of_lt (by omega)]
      omega
    · rename_i he
      by_cases h32 : exponent c ≤ 32
      · rw [dif_pos ⟨by omega, h32⟩, if_pos h32]
        exact placed_val hm
      · rw [dif_neg (fun h => h32 h.2), if_neg h32]
        exact max_val

/-- The targets a header can name: a 23-bit mantissa times a power of 256, or the
    maximum. -/
def Nameable (v : Nat) : Prop := v = 2 ^ 256 - 1 ∨ ∃ k ≤ 29, 256 ^ k ∣ v ∧ v < 2 ^ 23 * 256 ^ k

/-- A compact field put together from a mantissa and an exponent gives both back. -/
theorem exists_compact {m e : Nat} (hm : m < 2 ^ 23) (he : e < 256) :
    ∃ c, (mantissa c).toNat = m ∧ exponent c = e ∧ isNegative c = false := by
  have hc : (UInt32.ofNat (e * 2 ^ 24 + m)).toNat = e * 2 ^ 24 + m := by
    rw [UInt32.toNat_ofNat', Nat.mod_eq_of_lt (by omega)]
  refine ⟨UInt32.ofNat (e * 2 ^ 24 + m), ?_⟩
  rw [mantissa_toNat, exponent_eq, isNegative_eq, hc]
  exact ⟨by omega, by omega, decide_eq_false (by omega)⟩

theorem fromCompact_surj_iff (t : Target) : (∃ c, fromCompact c = t) ↔ Nameable t.val := by
  constructor
  · rintro ⟨c, rfl⟩
    rw [fromCompact_val]
    have hm := mantissa_lt c
    split
    · exact Or.inr ⟨0, by omega, by simp, by simp⟩
    · split
      · have : (mantissa c).toNat / 256 ^ (3 - exponent c) ≤ (mantissa c).toNat := Nat.div_le_self _ _
        exact Or.inr ⟨0, by omega, by simp, by omega⟩
      · split
        · exact Or.inr ⟨exponent c - 3, by omega, Nat.dvd_mul_left _ _, Nat.mul_lt_mul_of_pos_right hm (by positivity)⟩
        · exact Or.inl rfl
  · rintro (h | ⟨k, hk, ⟨m, hv⟩, hlt⟩)
    · exact ⟨0x21000001, val_inj (by rw [h]; decide)⟩
    · have hm : m < 2 ^ 23 := by
        rw [hv, Nat.mul_comm] at hlt
        exact Nat.lt_of_mul_lt_mul_right hlt
      obtain ⟨c, h1, h2, h3⟩ := exists_compact hm (e := k + 3) (by omega)
      refine ⟨c, val_inj ?_⟩
      rw [fromCompact_val, h3, h2, h1, hv]
      by_cases h0 : m = 0
      · have hz : mantissa c = 0 := UInt32.toNat_inj.mp (by rw [h1, h0]; rfl)
        simp [hz, h0]
      · have hz : mantissa c ≠ 0 := fun e => h0 (by rw [← h1, e]; rfl)
        rw [if_neg (by simp [hz])]
        by_cases hk0 : k = 0
        · subst hk0; simp
        · rw [if_neg (by omega), if_pos (by omega), Nat.add_sub_cancel, Nat.mul_comm]

end Target

inductive PowError where
  | insufficientWork (hash : Hash256) (target : Target)
  deriving DecidableEq

def verifyPow (H : Hasher) (header : BlockHeader) (expected : Target) : Except PowError Unit :=
  if !expected.isMetBy (header.hash H) then .error (.insufficientWork (header.hash H) expected) else .ok ()

end Scytale
