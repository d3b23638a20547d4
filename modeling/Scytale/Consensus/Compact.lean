/-
  Scytale.Consensus.Compact — encoding a target as a compact field
  (crates/scytale-consensus/src/target.rs, `to_compact`).

  The encoder cuts a number down to its leading digits: `lead v e` is the mantissa of `v`
  at exponent `e`, `unlead` the number a mantissa stands for. The exponent is the number of
  digits of the doubled number (`Width`), so that the mantissa's sign bit stays clear.
  - `toCompact_spec`: the encoder computes that mantissa at that exponent.
  - `compact_rounds_iff`: encoding rounds down, and encodes what it rounded to in the same
    way, exactly below `2 ^ 255` and at the maximum. From `2 ^ 255` on the encoder names
    exponent 33, which the decoder takes for the maximum (`compact_rounds_up`).
-/
import Scytale.Consensus.Target

namespace Scytale

open Lib

namespace Leading

/-! ## Leading digits -/

/-- The exponent of a number: its doubled value has `e` digits. -/
def Width (v e : Nat) : Prop := 256 ^ e ≤ 512 * v ∧ 2 * v < 256 ^ e

/-- The leading digits of `v`, of which it has `e`. -/
def lead (v e : Nat) : Nat := v * 256 ^ 3 / 256 ^ e

/-- The number with these leading digits and zeros after them. -/
def unlead (m e : Nat) : Nat := m * 256 ^ e / 256 ^ 3

theorem Width.unique {v e e' : Nat} (h : Width v e) (h' : Width v e') : e = e' := by
  have hlt : ∀ {a b}, Width v a → Width v b → ¬ a < b := by
    intro a b ha hb hab
    have hpow : 256 ^ (a + 1) ≤ 256 ^ b := Nat.pow_le_pow_right (by decide) hab
    have := ha.2
    have := hb.1
    rw [Nat.pow_succ] at hpow
    omega
  have := hlt h h'
  have := hlt h' h
  omega

theorem pow_split {e : Nat} (h : 3 ≤ e) : 256 ^ e = 256 ^ (e - 3) * 256 ^ 3 := by
  rw [← Nat.pow_add, Nat.sub_add_cancel h]

theorem pow_split_low {e : Nat} (h : e ≤ 3) : 256 ^ 3 = 256 ^ (3 - e) * 256 ^ e := by
  rw [← Nat.pow_add, Nat.sub_add_cancel h]

theorem unlead_high {e : Nat} (h : 3 ≤ e) (m : Nat) : unlead m e = m * 256 ^ (e - 3) := by
  rw [unlead, pow_split h, ← Nat.mul_assoc, Nat.mul_div_cancel _ (by decide)]

theorem unlead_low {e : Nat} (h : e ≤ 3) (m : Nat) : unlead m e = m / 256 ^ (3 - e) := by
  rw [unlead, pow_split_low h, Nat.mul_div_mul_right _ _ (Nat.pow_pos (by decide))]

theorem lead_low {e : Nat} (h : e ≤ 3) (v : Nat) : lead v e = v * 256 ^ (3 - e) := by
  rw [lead, pow_split_low h, ← Nat.mul_assoc, Nat.mul_div_cancel _ (Nat.pow_pos (by decide))]

theorem lead_lt {v e : Nat} (h : 2 * v < 256 ^ e) : lead v e < 2 ^ 23 := by
  rw [lead, Nat.div_lt_iff_lt_mul (Nat.pow_pos (by decide))]
  omega

theorem le_lead {v e : Nat} (h : 256 ^ e ≤ 512 * v) : 2 ^ 15 ≤ lead v e := by
  rw [lead, Nat.le_div_iff_mul_le (Nat.pow_pos (by decide))]
  omega

theorem unlead_lead_low {e : Nat} (h : e ≤ 3) (v : Nat) : unlead (lead v e) e = v := by
  rw [unlead_low h, lead_low h, Nat.mul_div_cancel _ (Nat.pow_pos (by decide))]

theorem unlead_lead_le (v e : Nat) : unlead (lead v e) e ≤ v := by
  rw [unlead, lead]
  exact Nat.div_le_of_le_mul (by rw [Nat.mul_comm (256 ^ 3)]; exact Nat.div_mul_le_self _ _)

/-- What was cut off once is not cut off again. -/
theorem lead_unlead_lead (v e : Nat) : lead (unlead (lead v e) e) e = lead v e := by
  rcases Nat.le_total e 3 with h | h
  · rw [unlead_lead_low h]
  · rw [unlead_high h, lead, Nat.mul_assoc, ← pow_split h, Nat.mul_div_cancel _ (Nat.pow_pos (by decide))]

theorem Width.unlead_lead {v e : Nat} (h : Width v e) : Width (unlead (lead v e) e) e := by
  refine ⟨?_, Nat.lt_of_le_of_lt (Nat.mul_le_mul_left 2 (unlead_lead_le v e)) h.2⟩
  rcases Nat.le_total e 3 with h3 | h3
  · rw [unlead_lead_low h3]
    exact h.1
  · have hm := Nat.mul_le_mul_right (256 ^ (e - 3)) (le_lead h.1)
    rw [unlead_high h3, pow_split h3]
    omega

end Leading

/-! ## The encoder -/

open Leading

namespace Target

/-- `self.0[i] as u32`. -/
def byteAt (t : Target) (i : Nat) : UInt32 := (t.bytes.getD i 0).toUInt32

def firstNonZero (t : Target) : Nat := t.bytes.findIdx (· != 0)

/-- Three bytes from the `i`-th on, as far as there are. -/
def leadingBytes (t : Target) (i : Nat) : UInt32 :=
  let m := t.byteAt i <<< 16
  let m := if i + 1 < 32 then m ||| (t.byteAt (i + 1) <<< 8) else m
  if i + 2 < 32 then m ||| t.byteAt (i + 2) else m

def toCompact (t : Target) : UInt32 :=
  let i := t.firstNonZero
  if i = 32 then 0
  else
    let r : Nat × UInt32 :=
      if t.bytes.getD i 0 > 0x7f then (32 - i + 1, t.leadingBytes i >>> 8) else (32 - i, t.leadingBytes i)
    (UInt32.ofNat r.1 <<< 24) ||| (r.2 &&& 0x007fffff)

/-- Three bytes side by side. -/
theorem pack_toNat (a b c : UInt8) :
    (a.toUInt32 <<< 16 ||| b.toUInt32 <<< 8 ||| c.toUInt32).toNat = a.toNat * 65536 + b.toNat * 256 + c.toNat := by
  have ha := a.toNat_lt
  have hb := b.toNat_lt
  have hc := c.toNat_lt
  have h1 : (a.toUInt32 <<< 16).toNat = (a.toNat * 256) <<< 8 := by
    rw [UInt32.toNat_shiftLeft, UInt8.toNat_toUInt32]
    show a.toNat <<< 16 % 2 ^ 32 = _
    rw [Nat.shiftLeft_eq, Nat.shiftLeft_eq, Nat.mod_eq_of_lt (by omega)]
    omega
  have h2 : (b.toUInt32 <<< 8).toNat = b.toNat <<< 8 := by
    rw [UInt32.toNat_shiftLeft, UInt8.toNat_toUInt32]
    show b.toNat <<< 8 % 2 ^ 32 = _
    rw [Nat.shiftLeft_eq, Nat.mod_eq_of_lt (by omega)]
  have h3 : a.toNat * 256 ||| b.toNat = a.toNat * 256 + b.toNat := by
    have := Nat.shiftLeft_add_eq_or_of_lt (i := 8) hb a.toNat
    rw [Nat.shiftLeft_eq] at this
    exact this.symm
  rw [UInt32.toNat_or, UInt32.toNat_or, h1, h2, UInt8.toNat_toUInt32, ← Nat.shiftLeft_or_distrib, h3,
    ← Nat.shiftLeft_add_eq_or_of_lt (i := 8) hc, Nat.shiftLeft_eq]
  omega

/-- An exponent and a mantissa side by side. -/
theorem field_toNat {e : Nat} (m : UInt32) (he : e < 256) :
    ((UInt32.ofNat e <<< 24) ||| (m &&& 0x007fffff)).toNat = e * 2 ^ 24 + m.toNat % 2 ^ 23 := by
  have h1 : (UInt32.ofNat e <<< 24).toNat = e <<< 24 := by
    have hs : (24 : UInt32).toNat % 32 = 24 := rfl
    rw [UInt32.toNat_shiftLeft, hs, UInt32.toNat_ofNat', Nat.mod_eq_of_lt (show e < 2 ^ 32 by omega), Nat.shiftLeft_eq,
      Nat.mod_eq_of_lt (by omega)]
  have h2 : (m &&& 0x007fffff).toNat = m.toNat % 2 ^ 23 := mantissa_toNat m
  rw [UInt32.toNat_or, h1, h2, ← Nat.shiftLeft_add_eq_or_of_lt (i := 24) (by omega), Nat.shiftLeft_eq]

/-- Past the last byte there is nothing to add. -/
theorem leadingBytes_toNat (t : Target) (i : Nat) :
    (t.leadingBytes i).toNat =
      (t.bytes.getD i 0).toNat * 65536 + (t.bytes.getD (i + 1) 0).toNat * 256 + (t.bytes.getD (i + 2) 0).toNat := by
  rw [← pack_toNat]
  have hend : ∀ {j}, ¬ j < 32 → t.byteAt j = 0 := by
    intro j hj
    rw [byteAt, List.getD_eq_default _ _ (by rw [t.size]; omega)]
    rfl
  have h1 : (if i + 1 < 32 then (t.byteAt i <<< 16) ||| (t.byteAt (i + 1) <<< 8) else t.byteAt i <<< 16) =
      (t.byteAt i <<< 16) ||| (t.byteAt (i + 1) <<< 8) := by
    by_cases h : i + 1 < 32
    · rw [if_pos h]
    · rw [if_neg h, hend h]
      simp
  have h2 : ∀ m : UInt32, (if i + 2 < 32 then m ||| t.byteAt (i + 2) else m) = m ||| t.byteAt (i + 2) := by
    intro m
    by_cases h : i + 2 < 32
    · rw [if_pos h]
    · rw [if_neg h, hend h]
      simp
  simp only [leadingBytes, h1, h2]
  rfl

theorem exists_first_nonzero {bs : Bytes} (h : 0 < byteVal bs) :
    ∃ b rest, bs = List.replicate (bs.findIdx (· != 0)) 0 ++ b :: rest ∧ b ≠ 0 := by
  induction bs with
  | nil => exact absurd h (by decide)
  | cons x xs ih =>
    by_cases hx : x = 0
    · subst hx
      have hxs : 0 < byteVal xs := by
        rw [byteVal_cons] at h
        simpa using h
      obtain ⟨b, rest, he, hb⟩ := ih hxs
      refine ⟨b, rest, ?_, hb⟩
      rw [List.findIdx_cons]
      simp only [bne_self_eq_false, cond_false, List.replicate_succ, List.cons_append]
      rw [← he]
    · refine ⟨x, xs, ?_, hx⟩
      have hne : (x != 0) = true := by simpa using hx
      rw [List.findIdx_cons, hne]
      rfl

/-- The three leading bytes are the leading digits. -/
theorem lead_bytes (b : UInt8) (rest : Bytes) :
    lead (byteVal (b :: rest)) (rest.length + 1) =
      b.toNat * 65536 + (rest.getD 0 0).toNat * 256 + (rest.getD 1 0).toNat := by
  match rest with
  | [] =>
    rw [lead, byteVal_cons]
    simp [byteVal]
    omega
  | [c] =>
    rw [lead, byteVal_cons, byteVal_cons]
    simp [byteVal]
    omega
  | c :: d :: tl =>
    have hlt := byteVal_lt tl
    have hpos : 0 < 256 ^ tl.length := Nat.pow_pos (by decide)
    have hv : byteVal (b :: c :: d :: tl) =
        (b.toNat * 65536 + c.toNat * 256 + d.toNat) * 256 ^ tl.length + byteVal tl := by
      simp only [byteVal_cons, List.length_cons, Nat.pow_succ]
      ring
    have hp : 256 ^ ((c :: d :: tl).length + 1) = 256 ^ tl.length * 256 ^ 3 := by
      simp only [List.length_cons, ← Nat.pow_add]
    rw [lead, hp, Nat.mul_div_mul_right _ _ (by decide), hv, Nat.mul_comm _ (256 ^ tl.length),
      Nat.mul_add_div hpos, Nat.div_eq_of_lt hlt, Nat.add_zero]
    rfl

theorem lead_succ (v e : Nat) : lead v (e + 1) = lead v e / 256 := by
  rw [lead, lead, Nat.div_div_eq_div_mul, ← Nat.pow_succ]

/-- The encoder names the leading digits at the exponent that leaves the sign bit clear. -/
theorem toCompact_spec {t : Target} (h : 0 < t.val) :
    ∃ e, 1 ≤ e ∧ e ≤ 33 ∧ Width t.val e ∧ (toCompact t).toNat = e * 2 ^ 24 + lead t.val e := by
  obtain ⟨b, rest, hbs, hb⟩ := exists_first_nonzero h
  rw [← firstNonZero] at hbs
  have hlen : t.firstNonZero + (rest.length + 1) = 32 := by
    have := t.size
    rw [hbs] at this
    simpa using this
  have hval : t.val = byteVal (b :: rest) := by
    rw [val, hbs, byteVal_append, byteVal_zeros, Nat.zero_mul, Nat.zero_add]
  have hget : ∀ j, t.bytes.getD (t.firstNonZero + j) 0 = (b :: rest).getD j 0 := by
    intro j
    rw [hbs, List.getD_append_right _ _ _ _ (by simp), List.length_replicate, Nat.add_sub_cancel_left]
  have hlead : (t.leadingBytes t.firstNonZero).toNat = lead t.val (rest.length + 1) := by
    have h0 := hget 0
    have h1 := hget 1
    have h2 := hget 2
    rw [Nat.add_zero] at h0
    rw [leadingBytes_toNat, h0, h1, h2, hval, lead_bytes]
    rfl
  have hbpos : 1 ≤ b.toNat := Nat.pos_of_ne_zero fun e => hb (UInt8.toNat_inj.mp e)
  have hb256 := b.toNat_lt
  have hrest := byteVal_lt rest
  have hcons : t.val = b.toNat * 256 ^ rest.length + byteVal rest := by rw [hval, byteVal_cons]
  have hmul := Nat.mul_le_mul_right (256 ^ rest.length) hbpos
  have hpow : 256 ^ (rest.length + 1) = 256 * 256 ^ rest.length := by rw [Nat.pow_succ, Nat.mul_comm]
  have hget0 : t.bytes.getD t.firstNonZero 0 = b := hget 0
  have hi : t.firstNonZero ≠ 32 := by omega
  by_cases hbig : b > 0x7f
  · -- the leading byte would reach the sign bit: one digit more, one byte fewer
    have hb128 : 128 ≤ b.toNat := UInt8.lt_iff_toNat_lt.mp hbig
    have hmul' := Nat.mul_le_mul_right (256 ^ rest.length) hb128
    have hmul'' := Nat.mul_le_mul_right (256 ^ rest.length) (show b.toNat ≤ 255 by omega)
    have hpow' : 256 ^ (rest.length + 1 + 1) = 256 * (256 * 256 ^ rest.length) := by
      rw [Nat.pow_succ, hpow, Nat.mul_comm]
    have hw : Width t.val (rest.length + 2) := ⟨by rw [hpow']; omega, by rw [hpow']; omega⟩
    refine ⟨rest.length + 2, by omega, by omega, hw, ?_⟩
    have hsh : (t.leadingBytes t.firstNonZero >>> 8).toNat = lead t.val (rest.length + 2) := by
      rw [UInt32.toNat_shiftRight, hlead, lead_succ t.val (rest.length + 1)]
      exact Nat.shiftRight_eq_div_pow _ 8
    simp only [toCompact, hi, if_false, hget0, hbig, if_true]
    rw [show 32 - t.firstNonZero + 1 = rest.length + 2 by omega, field_toNat _ (by omega), hsh,
      Nat.mod_eq_of_lt (lead_lt hw.2)]
  · have hb128 : b.toNat < 128 := by
      by_contra hge
      exact hbig (UInt8.lt_iff_toNat_lt.mpr (Nat.not_lt.mp hge))
    have hmul' := Nat.mul_le_mul_right (256 ^ rest.length) (show b.toNat ≤ 127 by omega)
    have hw : Width t.val (rest.length + 1) := ⟨by rw [hpow]; omega, by rw [hpow]; omega⟩
    refine ⟨rest.length + 1, by omega, by omega, hw, ?_⟩
    simp only [toCompact, hi, if_false, hget0, hbig]
    rw [show 32 - t.firstNonZero = rest.length + 1 by omega, field_toNat _ (by omega), hlead,
      Nat.mod_eq_of_lt (lead_lt hw.2)]

theorem toCompact_zero {t : Target} (h : t.val = 0) : toCompact t = 0 := by
  have ht : t = zero := val_inj (by rw [h, zero_val])
  rw [ht]
  decide

/-- What the encoder writes for a number above zero, read back. -/
theorem fromCompact_toCompact {t : Target} {e : Nat} (h1 : 1 ≤ e) (h33 : e ≤ 33) (hw : Width t.val e)
    (hc : (toCompact t).toNat = e * 2 ^ 24 + lead t.val e) :
    (fromCompact (toCompact t)).val = if e ≤ 32 then unlead (lead t.val e) e else 2 ^ 256 - 1 := by
  have hlt := lead_lt hw.2
  have hle := le_lead hw.1
  have hneg : isNegative (toCompact t) = false := by
    rw [isNegative_eq, hc]
    exact decide_eq_false (by omega)
  have hm : (mantissa (toCompact t)).toNat = lead t.val e := by
    rw [mantissa_toNat, hc]
    omega
  have he : exponent (toCompact t) = e := by
    rw [exponent_eq, hc]
    omega
  have hm0 : mantissa (toCompact t) ≠ 0 := fun h0 => by
    rw [h0] at hm
    change 0 = _ at hm
    omega
  rw [fromCompact_val, hneg, he, hm, if_neg (by simp [hm0]; omega)]
  by_cases h3 : e ≤ 3
  · rw [if_pos h3, if_pos (by omega), unlead_low h3]
  · rw [if_neg h3, unlead_high (by omega)]

theorem width_of_large {t : Target} (h : 2 ^ 255 ≤ t.val) : Width t.val 33 := by
  have hlt := t.val_lt
  have h33 : (256 : Nat) ^ 33 = 512 * 2 ^ 255 := by decide
  exact ⟨by rw [h33]; omega, by rw [h33]; omega⟩

theorem width_le_of_small {t : Target} {e : Nat} (h : t.val < 2 ^ 255) (hw : Width t.val e) : e ≤ 32 := by
  by_contra hgt
  have hpow : (256 : Nat) ^ 33 ≤ 256 ^ e := Nat.pow_le_pow_right (by decide) (by omega)
  have h33 : (256 : Nat) ^ 33 = 512 * 2 ^ 255 := by decide
  have := hw.1
  omega

/-- Below `2 ^ 255` the encoder rounds down, to a number it encodes in the same way. -/
theorem compact_rounds_down {t : Target} (h : t.val < 2 ^ 255) :
    (fromCompact (toCompact t)).val ≤ t.val ∧ toCompact (fromCompact (toCompact t)) = toCompact t := by
  rcases Nat.eq_zero_or_pos t.val with h0 | hpos
  · rw [toCompact_zero h0, show fromCompact 0 = zero by decide, zero_val, toCompact_zero zero_val]
    exact ⟨Nat.zero_le _, rfl⟩
  · obtain ⟨e, h1, h33, hw, hc⟩ := toCompact_spec hpos
    have hv := fromCompact_toCompact h1 h33 hw hc
    rw [if_pos (width_le_of_small h hw)] at hv
    refine ⟨hv ▸ unlead_lead_le _ _, ?_⟩
    have hw' : Width (fromCompact (toCompact t)).val e := hv ▸ hw.unlead_lead
    have hpos' : 0 < (fromCompact (toCompact t)).val := by
      have := hw'.1
      have := Nat.pow_pos (n := e) (show 0 < 256 by decide)
      omega
    obtain ⟨e', _, _, hw'', hc'⟩ := toCompact_spec hpos'
    have he : e' = e := hw''.unique hw'
    subst he
    refine UInt32.toNat_inj.mp ?_
    rw [hc', hc, hv, lead_unlead_lead]

/-- From `2 ^ 255` on the decoder answers with the maximum. -/
theorem compact_of_large {t : Target} (h : 2 ^ 255 ≤ t.val) : fromCompact (toCompact t) = max := by
  have hw := width_of_large h
  obtain ⟨e, h1, h33, hw', hc⟩ := toCompact_spec (show 0 < t.val by omega)
  have he : e = 33 := hw'.unique hw
  subst he
  refine val_inj ?_
  rw [fromCompact_toCompact h1 h33 hw' hc, max_val]
  rfl

/-- Encoding a target and decoding it again makes it no easier, and is stable, exactly
    for the targets below `2 ^ 255` and for the maximum. -/
theorem compact_rounds_iff (t : Target) :
    ((fromCompact (toCompact t)).val ≤ t.val ∧ toCompact (fromCompact (toCompact t)) = toCompact t) ↔
      t.val < 2 ^ 255 ∨ t = max := by
  constructor
  · rintro ⟨hle, _⟩
    by_cases h : t.val < 2 ^ 255
    · exact Or.inl h
    · rw [compact_of_large (Nat.not_lt.mp h), max_val] at hle
      have := t.val_lt
      exact Or.inr (val_inj (by rw [max_val]; omega))
  · rintro (h | rfl)
    · exact compact_rounds_down h
    · have hmax := compact_of_large (t := max) (by rw [max_val]; decide)
      exact ⟨by rw [hmax], by rw [hmax]⟩

/-- `2 ^ 255` comes back as `2 ^ 256 - 1`, an easier target, and is encoded anew. -/
theorem compact_rounds_up :
    ¬ ∀ t : Target, (fromCompact (toCompact t)).val ≤ t.val ∧ toCompact (fromCompact (toCompact t)) = toCompact t := by
  intro h
  have hbad := (h ⟨0x80 :: List.replicate 31 0, by simp⟩).1
  revert hbad
  decide

end Target

end Scytale
