/-
  Scytale.Lib.LongDivision — bit-by-bit long division of numbers held in 64-bit limbs, most
  significant limb first, for any number of limbs.

  The loop shifts the remainder left, brings down one bit of the dividend, and subtracts
  the divisor when it fits. `Inv` is what holds after the bits above `i` were handled:
  quotient and remainder are those of the dividend without its low `i` bits.
  - `shl1_value` / `orAt_value` / `limbBit_value`: the limb operations as arithmetic.
  - `divStep_inv`: one step keeps the invariant. The shifted remainder is at most the
    dividend's leading part, so no bit is lost at the top.
  - `divLoop_quot`: the loop computes the quotient.
-/
import Scytale.Lib.Bytes

namespace Scytale.Lib.LongDivision

/-- Shift left by one; the second component is the bit that left the first limb. -/
def shl1 : List UInt64 → List UInt64 × UInt64
  | [] => ([], 0)
  | x :: xs =>
    let r := shl1 xs
    (((x <<< 1) ||| r.2) :: r.1, x >>> 63)

def orAt (ls : List UInt64) (idx : Nat) (w : UInt64) : List UInt64 := ls.modify idx (· ||| w)

/-- Bit `i` of a number whose last limb has index `top`. -/
def limbBit (top : Nat) (ls : List UInt64) (i : Nat) : UInt64 :=
  (ls.getD (top - i / 64) 0 >>> UInt64.ofNat (i % 64)) &&& 1

def divStep (top : Nat) (num den : List UInt64) (i : Nat) (st : List UInt64 × List UInt64) : List UInt64 × List UInt64 :=
  let r := orAt (shl1 st.2).1 top (limbBit top num i)
  if r < den then (st.1, r)
  else (orAt st.1 (top - i / 64) (1 <<< UInt64.ofNat (i % 64)), (limbRadix.subC r den 0).1)

/-- The bits below `n`, from the highest down; quotient first, then remainder. -/
def divLoop (top : Nat) (num den : List UInt64) : Nat → List UInt64 × List UInt64 → List UInt64 × List UInt64
  | 0, st => st
  | i + 1, st => divLoop top num den i (divStep top num den i st)

/-! ## Limb operations as arithmetic -/

theorem shl1_length (ls : List UInt64) : (shl1 ls).1.length = ls.length := by
  induction ls with
  | nil => rfl
  | cons x xs ih => simp [shl1, ih]

theorem shl1_out (ls : List UInt64) : (shl1 ls).2.toNat < 2 := by
  cases ls with
  | nil => decide
  | cons x xs =>
    have hx := x.toNat_lt
    have : (shl1 (x :: xs)).2.toNat = x.toNat / 2 ^ 63 := by
      show (x >>> 63).toNat = _
      rw [UInt64.toNat_shiftRight, Nat.shiftRight_eq_div_pow]
      rfl
    rw [this]
    omega

/-- One limb of the shift: the bit that comes in fills the place the shift left empty. -/
theorem shl1_limb (x c : UInt64) (hc : c.toNat < 2) :
    ((x <<< 1) ||| c).toNat + (x >>> 63).toNat * 2 ^ 64 = 2 * x.toNat + c.toNat := by
  have hx := x.toNat_lt
  have h1 : (x <<< 1).toNat = 2 ^ 1 * (x.toNat % 2 ^ 63) := by
    rw [UInt64.toNat_shiftLeft, Nat.shiftLeft_eq]
    show x.toNat * 2 ^ 1 % 2 ^ 64 = _
    omega
  have h2 : (x >>> 63).toNat = x.toNat / 2 ^ 63 := by
    rw [UInt64.toNat_shiftRight, Nat.shiftRight_eq_div_pow]
    rfl
  rw [UInt64.toNat_or, h1, h2, ← Nat.two_pow_add_eq_or_of_lt (by omega)]
  omega

theorem shl1_value (ls : List UInt64) :
    limbVal (shl1 ls).1 + (shl1 ls).2.toNat * (2 ^ 64) ^ ls.length = 2 * limbVal ls := by
  induction ls with
  | nil => rfl
  | cons x xs ih =>
    have hl := shl1_limb x (shl1 xs).2 (shl1_out xs)
    simp only [shl1, limbVal_cons, shl1_length, List.length_cons, Nat.pow_succ]
    linear_combination (2 ^ 64) ^ xs.length * hl + ih

theorem orAt_length (ls : List UInt64) (idx : Nat) (w : UInt64) : (orAt ls idx w).length = ls.length := by
  simp [orAt]

theorem orAt_append (hi : List UInt64) (l : UInt64) (lo : List UInt64) (w : UInt64) :
    orAt (hi ++ l :: lo) hi.length w = hi ++ (l ||| w) :: lo := by
  induction hi with
  | nil => simp [orAt]
  | cons x xs ih => simpa [orAt] using ih

/-- A limb in its place: what is above it, the limb, what is below. -/
theorem limb_split {ls : List UInt64} {idx b : Nat} (h : ls.length = idx + b + 1) :
    ∃ hi l lo, ls = hi ++ l :: lo ∧ hi.length = idx ∧ lo.length = b := by
  refine ⟨ls.take idx, ls[idx], ls.drop (idx + 1), ?_, by rw [List.length_take]; omega, by rw [List.length_drop]; omega⟩
  rw [← List.drop_eq_getElem_cons, List.take_append_drop]

/-- The number above a limb's place, with the limb. -/
theorem limbVal_div (hi lo : List UInt64) (l : UInt64) :
    limbVal (hi ++ l :: lo) / (2 ^ 64) ^ lo.length = limbVal hi * 2 ^ 64 + l.toNat := by
  have hlo := limbVal_lt lo
  have hpos : 0 < (2 ^ 64) ^ lo.length := by positivity
  rw [limbVal_append, limbVal_cons, List.length_cons, Nat.pow_succ]
  rw [show limbVal hi * ((2 ^ 64) ^ lo.length * 2 ^ 64) + (l.toNat * (2 ^ 64) ^ lo.length + limbVal lo) =
    limbVal lo + (limbVal hi * 2 ^ 64 + l.toNat) * (2 ^ 64) ^ lo.length by ring]
  rw [Nat.add_mul_div_right _ _ hpos, Nat.div_eq_of_lt hlo, Nat.zero_add]

/-- Where the number is a multiple of `2 ^ t` from limb `b` on, or-ing a word below
    `2 ^ t` into that limb adds it. -/
theorem orAt_value {ls : List UInt64} {idx b t : Nat} {w : UInt64} (h : ls.length = idx + b + 1) (ht : t ≤ 64)
    (hw : w.toNat < 2 ^ t) (hd : 2 ^ (64 * b + t) ∣ limbVal ls) :
    limbVal (orAt ls idx w) = limbVal ls + w.toNat * (2 ^ 64) ^ b := by
  obtain ⟨hi, l, lo, rfl, rfl, rfl⟩ := limb_split h
  have hmod : orAt (hi ++ l :: lo) hi.length w = hi ++ (l ||| w) :: lo := orAt_append hi l lo w
  -- the limb itself is a multiple of `2 ^ t`
  obtain ⟨k, hk⟩ := hd
  have hdiv := limbVal_div hi lo l
  rw [hk, Nat.pow_add, Nat.mul_assoc, Nat.pow_mul, Nat.mul_div_cancel_left _ (by positivity)] at hdiv
  have hl : 2 ^ t ∣ l.toNat := by
    have h64 : 2 ^ t ∣ limbVal hi * 2 ^ 64 := Dvd.dvd.mul_left (Nat.pow_dvd_pow 2 ht) _
    exact (Nat.dvd_add_right h64).mp ⟨k, hdiv.symm⟩
  obtain ⟨m, hm⟩ := hl
  have hor : (l ||| w).toNat = l.toNat + w.toNat := by
    rw [UInt64.toNat_or, hm, Nat.two_pow_add_eq_or_of_lt hw]
  rw [hmod, limbVal_append, limbVal_append, limbVal_cons, limbVal_cons, hor]
  simp only [List.length_cons]
  ring

theorem shift_amount (i : Nat) : (UInt64.ofNat (i % 64)).toNat % 64 = i % 64 := by
  rw [UInt64.toNat_ofNat']
  omega

theorem limbBit_value {top : Nat} {ls : List UInt64} {i : Nat} (h : ls.length = top + 1) (hi : i / 64 ≤ top) :
    (limbBit top ls i).toNat = limbVal ls / 2 ^ i % 2 := by
  obtain ⟨up, l, lo, rfl, hup, hlo⟩ := limb_split (show ls.length = (top - i / 64) + i / 64 + 1 by omega)
  have hget : (up ++ l :: lo).getD (top - i / 64) 0 = l := by simp [← hup]
  have hbit : (limbBit top (up ++ l :: lo) i).toNat = l.toNat / 2 ^ (i % 64) % 2 := by
    rw [limbBit, hget, UInt64.toNat_and, UInt64.toNat_shiftRight, shift_amount, Nat.shiftRight_eq_div_pow]
    exact Nat.and_two_pow_sub_one_eq_mod _ 1
  have hpow : 2 ^ i = (2 ^ 64) ^ lo.length * 2 ^ (i % 64) := by
    rw [hlo, ← Nat.pow_mul, ← Nat.pow_add, Nat.div_add_mod]
  -- the limbs above contribute an even number at this bit
  have h64 : (2 : Nat) ^ 64 = 2 ^ (63 - i % 64) * 2 * 2 ^ (i % 64) := by
    rw [← Nat.pow_succ, ← Nat.pow_add]
    congr 1
    omega
  rw [hbit, hpow, ← Nat.div_div_eq_div_mul, limbVal_div, h64]
  rw [show limbVal up * (2 ^ (63 - i % 64) * 2 * 2 ^ (i % 64)) + l.toNat =
    l.toNat + (limbVal up * 2 ^ (63 - i % 64) * 2) * 2 ^ (i % 64) by ring]
  rw [Nat.add_mul_div_right _ _ (by positivity), Nat.add_mul_mod_self_right]

/-! ## The loop -/

/-- Quotient and remainder of the dividend's leading part, the quotient in its place. -/
structure Inv (top : Nat) (num den : List UInt64) (i : Nat) (st : List UInt64 × List UInt64) : Prop where
  quot_length : st.1.length = top + 1
  rem_length : st.2.length = top + 1
  quot : limbVal st.1 = limbVal num / 2 ^ i / limbVal den * 2 ^ i
  rem : limbVal st.2 = limbVal num / 2 ^ i % limbVal den

variable {top : Nat} {num den : List UInt64}

/-- The next bit of the dividend, brought down. -/
theorem bring_down {i : Nat} {r : List UInt64} (hnum : num.length = top + 1) (hr : r.length = top + 1)
    (hi : i / 64 ≤ top) (hv : limbVal r = limbVal num / 2 ^ (i + 1) % limbVal den) :
    (orAt (shl1 r).1 top (limbBit top num i)).length = top + 1 ∧
      limbVal (orAt (shl1 r).1 top (limbBit top num i)) = 2 * limbVal r + limbVal num / 2 ^ i % 2 := by
  have hlen : (shl1 r).1.length = top + 1 := by rw [shl1_length, hr]
  refine ⟨by rw [orAt_length, hlen], ?_⟩
  have hbit := limbBit_value hnum hi
  have hlt : (limbBit top num i).toNat < 2 := by rw [hbit]; exact Nat.mod_lt _ (by decide)
  -- nothing is shifted out: twice the remainder is below the dividend's leading part
  have hnone : (shl1 r).2.toNat = 0 := by
    have hs := shl1_value r
    have hn := limbVal_lt num
    have hle : limbVal num / 2 ^ (i + 1) % limbVal den ≤ limbVal num / 2 ^ (i + 1) := Nat.mod_le _ _
    have h2 : 2 * (limbVal num / 2 ^ (i + 1)) ≤ limbVal num := by
      rw [Nat.pow_succ, ← Nat.div_div_eq_div_mul]
      have := Nat.div_le_self (limbVal num) (2 ^ i)
      omega
    have hout := shl1_out r
    rw [hnum] at hn
    rw [hr] at hs
    by_contra hne
    have h1 : (shl1 r).2.toNat = 1 := by omega
    rw [h1, Nat.one_mul] at hs
    omega
  have hval : limbVal (shl1 r).1 = 2 * limbVal r := by
    have := shl1_value r
    rw [hnone] at this
    omega
  rw [orAt_value (b := 0) (t := 1) hlen (by decide) hlt (by rw [hval]; simp), hval, hbit]
  simp

theorem divStep_inv {i : Nat} {st : List UInt64 × List UInt64} (hnum : num.length = top + 1)
    (hden : den.length = top + 1) (hd : 0 < limbVal den) (hi : i / 64 ≤ top) (h : Inv top num den (i + 1) st) :
    Inv top num den i (divStep top num den i st) := by
  obtain ⟨hq, hr, hqv, hrv⟩ := h
  obtain ⟨hlen, hval⟩ := bring_down hnum hr hi hrv
  -- one more bit of the dividend
  have hn : limbVal num / 2 ^ i = 2 * (limbVal num / 2 ^ (i + 1)) + limbVal num / 2 ^ i % 2 := by
    rw [Nat.pow_succ, ← Nat.div_div_eq_div_mul]
    omega
  have hnd := Nat.div_add_mod (limbVal num / 2 ^ (i + 1)) (limbVal den)
  have hrd := Nat.mod_lt (limbVal num / 2 ^ (i + 1)) hd
  rw [hrv] at hval
  generalize limbVal num / 2 ^ (i + 1) / limbVal den = q' at *
  generalize limbVal num / 2 ^ (i + 1) % limbVal den = r' at *
  have hb : limbVal num / 2 ^ i % 2 < 2 := Nat.mod_lt _ (by decide)
  generalize limbVal num / 2 ^ i % 2 = bit at *
  have hsum : limbVal num / 2 ^ i = limbVal den * (2 * q') + (2 * r' + bit) := by
    rw [hn, ← hnd]
    ring
  simp only [divStep]
  split
  · rename_i hlt
    have hlt : 2 * r' + bit < limbVal den := by
      rw [limbs_lt_iff (by rw [hlen, hden]), hval] at hlt
      exact hlt
    have hdiv : limbVal num / 2 ^ i / limbVal den = 2 * q' := by
      rw [hsum, Nat.mul_add_div hd, Nat.div_eq_of_lt hlt, Nat.add_zero]
    have hmod : limbVal num / 2 ^ i % limbVal den = 2 * r' + bit := by
      rw [hsum, Nat.mul_add_mod, Nat.mod_eq_of_lt hlt]
    refine ⟨hq, hlen, ?_, ?_⟩
    · rw [hqv, hdiv, Nat.pow_succ]
      ring
    · rw [hval, hmod]
  · rename_i hge
    have hge : limbVal den ≤ 2 * r' + bit := by
      rw [limbs_lt_iff (by rw [hlen, hden]), hval] at hge
      omega
    have hsum' : limbVal num / 2 ^ i = limbVal den * (2 * q' + 1) + (2 * r' + bit - limbVal den) := by
      rw [hsum, Nat.mul_add, Nat.mul_one]
      omega
    have hdiv : limbVal num / 2 ^ i / limbVal den = 2 * q' + 1 := by
      rw [hsum', Nat.mul_add_div hd, Nat.div_eq_of_lt (by omega), Nat.add_zero]
    have hmod : limbVal num / 2 ^ i % limbVal den = 2 * r' + bit - limbVal den := by
      rw [hsum', Nat.mul_add_mod, Nat.mod_eq_of_lt (by omega)]
    have hone : (1 <<< UInt64.ofNat (i % 64) : UInt64).toNat = 2 ^ (i % 64) := by
      have hs : i % 64 < 64 := Nat.mod_lt _ (by decide)
      have h2 : 2 ^ (i % 64) < 2 ^ 64 := Nat.pow_lt_pow_right (by decide) hs
      rw [UInt64.toNat_shiftLeft, shift_amount, Nat.shiftLeft_eq]
      show 1 * 2 ^ (i % 64) % 2 ^ 64 = _
      rw [Nat.one_mul, Nat.mod_eq_of_lt h2]
    have hsub := limbRadix.subC_value (by decide) (orAt (shl1 st.2).1 top (limbBit top num i)) den 0 (by decide)
      (by rw [hlen, hden])
    have hborrow := limbRadix.subC_borrow_le (orAt (shl1 st.2).1 top (limbBit top num i)) den 0 (by decide)
    refine ⟨by rw [orAt_length, hq], by rw [Radix.subC_length _ _ _ _ (by rw [hlen, hden]), hlen], ?_, ?_⟩
    · -- the quotient is a multiple of `2 ^ (i + 1)`, so bit `i` is free
      have hi' : 64 * (i / 64) + (i % 64 + 1) = i + 1 := by omega
      rw [orAt_value (b := i / 64) (t := i % 64 + 1) (by omega) (by omega)
        (by rw [hone]; exact Nat.pow_lt_pow_right (by decide) (by omega)) (by rw [hi', hqv]; exact Nat.dvd_mul_left _ _)]
      have hplace : 2 ^ (i % 64) * (2 ^ 64) ^ (i / 64) = 2 ^ i := by
        rw [← Nat.pow_mul, ← Nat.pow_add, Nat.add_comm, Nat.div_add_mod]
      rw [hone, hplace, hqv, hdiv, Nat.pow_succ]
      ring
    · -- no borrow leaves the first limb
      rw [hmod]
      show limbVal (limbRadix.subC (orAt (shl1 st.2).1 top (limbBit top num i)) den 0).1 = _
      change limbVal _ + limbVal den + 0 = limbVal _ + _ * (2 ^ 64) ^ _ at hsub
      have hlt := limbVal_lt (limbRadix.subC (orAt (shl1 st.2).1 top (limbBit top num i)) den 0).1
      rw [Radix.subC_length _ _ _ _ (by rw [hlen, hden])] at hlt
      rw [hval] at hsub
      rcases Nat.eq_zero_or_pos (limbRadix.subC (orAt (shl1 st.2).1 top (limbBit top num i)) den 0).2 with h0 | h0
      · rw [h0] at hsub
        omega
      · have h1 : (limbRadix.subC (orAt (shl1 st.2).1 top (limbBit top num i)) den 0).2 = 1 := by omega
        rw [h1] at hsub
        have hden' := limbVal_lt den
        rw [hden] at hden'
        rw [hlen] at hsub hlt
        omega

theorem divLoop_inv (hnum : num.length = top + 1) (hden : den.length = top + 1) (hd : 0 < limbVal den) :
    ∀ (n : Nat) (st : List UInt64 × List UInt64), n ≤ 64 * (top + 1) → Inv top num den n st →
      Inv top num den 0 (divLoop top num den n st) := by
  intro n
  induction n with
  | zero => intro st _ h; exact h
  | succ n ih =>
    intro st hn h
    exact ih _ (by omega) (divStep_inv hnum hden hd (by omega) h)

/-- All the bits handled from zero give the quotient. -/
theorem divLoop_quot (hnum : num.length = top + 1) (hden : den.length = top + 1) (hd : 0 < limbVal den) :
    let r := divLoop top num den (64 * (top + 1)) (List.replicate (top + 1) 0, List.replicate (top + 1) 0)
    r.1.length = top + 1 ∧ limbVal r.1 = limbVal num / limbVal den := by
  intro r
  have hzero : limbVal (List.replicate (top + 1) 0) = 0 := limbRadix.value_replicate rfl _
  have hbig : limbVal num / 2 ^ (64 * (top + 1)) = 0 := by
    have := limbVal_lt num
    rw [hnum, ← Nat.pow_mul] at this
    exact Nat.div_eq_of_lt this
  have hinit : Inv top num den (64 * (top + 1)) (List.replicate (top + 1) 0, List.replicate (top + 1) 0) :=
    ⟨by simp, by simp, by rw [hzero, hbig]; simp, by rw [hzero, hbig]; simp⟩
  have h := divLoop_inv hnum hden hd _ _ (Nat.le_refl _) hinit
  exact ⟨h.quot_length, by simpa using h.quot⟩

end Scytale.Lib.LongDivision
