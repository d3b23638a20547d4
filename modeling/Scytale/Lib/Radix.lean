/-
  Scytale.Lib.Radix — numbers as big-endian lists of fixed-width digits, over any digit
  type (bytes, 64-bit limbs).

  A `Radix D` says what a digit is worth and how a number is truncated to one digit. The
  schoolbook loops are written most significant digit first, as the recursion of a list;
  each carries what it has not yet placed (a carry, a borrow, a remainder), and its law
  says that nothing is lost:
  - `lt_iff_value`: on equal lengths the lexicographic order is the numeric one.
  - `addC_value` / `incC_value`: addition and increment with carry.
  - `subC_value`: subtraction with borrow, the borrow read off a double-width wrap-around.
  - `mulWord_value` / `divWord_value`: a list times, and divided by, one word.
-/
import Mathlib

namespace Scytale.Lib

/-- A fixed-width unsigned digit: its base, its value, and the truncating conversion
    back. -/
structure Radix (D : Type) [LT D] where
  base : Nat
  val : D → Nat
  ofNat : Nat → D
  val_lt : ∀ d, val d < base
  val_ofNat : ∀ n, val (ofNat n) = n % base
  val_inj : ∀ a b, val a = val b → a = b
  lt_iff : ∀ a b, a < b ↔ val a < val b

namespace Radix

variable {D : Type} [LT D] (R : Radix D)

theorem base_pos : 0 < R.base := Nat.lt_of_le_of_lt (Nat.zero_le _) (R.val_lt (R.ofNat 0))

theorem pow_pos (n : Nat) : 0 < R.base ^ n := Nat.pow_pos R.base_pos

/-- The number a list of digits stands for, most significant digit first. -/
def value : List D → Nat
  | [] => 0
  | d :: ds => R.val d * R.base ^ ds.length + value ds

@[simp] theorem value_nil : R.value [] = 0 := rfl

@[simp] theorem value_cons (d : D) (ds : List D) :
    R.value (d :: ds) = R.val d * R.base ^ ds.length + R.value ds := rfl

theorem value_lt (ds : List D) : R.value ds < R.base ^ ds.length := by
  induction ds with
  | nil => simp
  | cons d ds ih =>
    have hd := R.val_lt d
    calc R.value (d :: ds) < R.val d * R.base ^ ds.length + R.base ^ ds.length := by rw [value_cons]; omega
      _ = (R.val d + 1) * R.base ^ ds.length := by ring
      _ ≤ R.base * R.base ^ ds.length := Nat.mul_le_mul_right _ hd
      _ = R.base ^ (d :: ds).length := by rw [List.length_cons, Nat.pow_succ, Nat.mul_comm]

theorem value_append (xs ys : List D) : R.value (xs ++ ys) = R.value xs * R.base ^ ys.length + R.value ys := by
  induction xs with
  | nil => simp
  | cons x xs ih =>
    rw [List.cons_append, value_cons, value_cons, ih, List.length_append, Nat.pow_add]
    ring

theorem value_replicate {d : D} (h : R.val d = 0) (n : Nat) : R.value (List.replicate n d) = 0 := by
  induction n with
  | zero => rfl
  | succ n ih => rw [List.replicate_succ, value_cons, h, ih]; simp

/-- Of two lists of one length, the heads decide unless they agree. -/
theorem cons_lt_cons_value {x y : D} {xs ys : List D} (hlen : xs.length = ys.length) :
    R.value (x :: xs) < R.value (y :: ys) ↔
      R.val x < R.val y ∨ (R.val x = R.val y ∧ R.value xs < R.value ys) := by
  have hx := R.value_lt xs
  have hy := R.value_lt ys
  rw [value_cons, value_cons, ← hlen] at *
  rcases Nat.lt_trichotomy (R.val x) (R.val y) with h | h | h
  · have : (R.val x + 1) * R.base ^ xs.length ≤ R.val y * R.base ^ xs.length := Nat.mul_le_mul_right _ h
    rw [Nat.add_mul, Nat.one_mul] at this
    constructor
    · intro _; exact Or.inl h
    · intro _; omega
  · rw [h]
    omega
  · have : (R.val y + 1) * R.base ^ xs.length ≤ R.val x * R.base ^ xs.length := Nat.mul_le_mul_right _ h
    rw [Nat.add_mul, Nat.one_mul] at this
    omega

theorem lt_iff_value : ∀ {xs ys : List D}, xs.length = ys.length → (xs < ys ↔ R.value xs < R.value ys) := by
  intro xs
  induction xs with
  | nil =>
    intro ys h
    have : ys = [] := List.eq_nil_of_length_eq_zero h.symm
    subst this
    simp
  | cons x xs ih =>
    intro ys h
    rcases ys with _ | ⟨y, ys⟩
    · simp at h
    · have h' : xs.length = ys.length := by simpa using h
      have heq : x = y ↔ R.val x = R.val y := ⟨fun e => by rw [e], R.val_inj x y⟩
      rw [R.cons_lt_cons_value h', List.cons_lt_cons_iff, R.lt_iff, heq, ih h']

theorem value_inj : ∀ {xs ys : List D}, xs.length = ys.length → R.value xs = R.value ys → xs = ys := by
  intro xs
  induction xs with
  | nil => intro ys h _; exact (List.eq_nil_of_length_eq_zero h.symm).symm
  | cons x xs ih =>
    intro ys h he
    rcases ys with _ | ⟨y, ys⟩
    · simp at h
    · have h' : xs.length = ys.length := by simpa using h
      have h1 : ¬ R.value (x :: xs) < R.value (y :: ys) := by omega
      have h2 : ¬ R.value (y :: ys) < R.value (x :: xs) := by omega
      rw [R.cons_lt_cons_value h'] at h1
      rw [R.cons_lt_cons_value h'.symm] at h2
      have hv : R.val x = R.val y := by omega
      have hvs : R.value xs = R.value ys := by omega
      rw [R.val_inj x y hv, ih h' hvs]

/-- A digit that drops out of a double-width sum leaves the rest in the digit. -/
theorem split (n : Nat) : R.val (R.ofNat n) + n / R.base * R.base = n := by
  rw [R.val_ofNat, Nat.mul_comm]
  exact Nat.mod_add_div n R.base

/-! ## Addition -/

/-- Digit-wise sum of two lists and a carry into the last digit; the second component is
    the carry out of the first one. -/
def addC : List D → List D → Nat → List D × Nat
  | x :: xs, y :: ys, c =>
    let r := addC xs ys c
    let sum := R.val x + R.val y + r.2
    (R.ofNat sum :: r.1, sum / R.base)
  | _, _, c => ([], c)

theorem addC_length : ∀ (xs ys : List D) (c : Nat), xs.length = ys.length → (R.addC xs ys c).1.length = xs.length := by
  intro xs
  induction xs with
  | nil => intro ys c _; cases ys <;> rfl
  | cons x xs ih =>
    intro ys c h
    rcases ys with _ | ⟨y, ys⟩
    · simp at h
    · simp [addC, ih ys c (by simpa using h)]

theorem addC_value : ∀ (xs ys : List D) (c : Nat), xs.length = ys.length →
    R.value (R.addC xs ys c).1 + (R.addC xs ys c).2 * R.base ^ xs.length = R.value xs + R.value ys + c := by
  intro xs
  induction xs with
  | nil =>
    intro ys c h
    have : ys = [] := List.eq_nil_of_length_eq_zero h.symm
    subst this
    simp [addC]
  | cons x xs ih =>
    intro ys c h
    rcases ys with _ | ⟨y, ys⟩
    · simp at h
    · have h' : xs.length = ys.length := by simpa using h
      have hr := ih ys c h'
      have hs := R.split (R.val x + R.val y + (R.addC xs ys c).2)
      simp only [addC, value_cons, R.addC_length xs ys c h', List.length_cons, ← h', Nat.pow_succ]
      linear_combination R.base ^ xs.length * hs + hr

/-- The list plus a carry into its last digit. -/
def incC : List D → Nat → List D × Nat
  | x :: xs, c =>
    let r := incC xs c
    let sum := R.val x + r.2
    (R.ofNat sum :: r.1, sum / R.base)
  | [], c => ([], c)

theorem incC_length : ∀ (xs : List D) (c : Nat), (R.incC xs c).1.length = xs.length := by
  intro xs c
  induction xs with
  | nil => rfl
  | cons x xs ih => simp [incC, ih]

theorem incC_value (xs : List D) (c : Nat) :
    R.value (R.incC xs c).1 + (R.incC xs c).2 * R.base ^ xs.length = R.value xs + c := by
  induction xs with
  | nil => simp [incC]
  | cons x xs ih =>
    have hs := R.split (R.val x + (R.incC xs c).2)
    simp only [incC, value_cons, R.incC_length xs c, List.length_cons, Nat.pow_succ]
    linear_combination R.base ^ xs.length * hs + ih

/-! ## Subtraction -/

/-- Digit-wise difference with a borrow out of the last digit. Each digit's difference is
    taken modulo a double-width word; it came out above the digit it started from exactly
    when it wrapped, which is the next borrow. -/
def subC : List D → List D → Nat → List D × Nat
  | x :: xs, y :: ys, b =>
    let r := subC xs ys b
    let diff := (R.val x + R.base * R.base - (R.val y + r.2)) % (R.base * R.base)
    (R.ofNat diff :: r.1, if R.val x < diff then 1 else 0)
  | _, _, b => ([], b)

theorem subC_length : ∀ (xs ys : List D) (b : Nat), xs.length = ys.length → (R.subC xs ys b).1.length = xs.length := by
  intro xs
  induction xs with
  | nil => intro ys b _; cases ys <;> rfl
  | cons x xs ih =>
    intro ys b h
    rcases ys with _ | ⟨y, ys⟩
    · simp at h
    · simp [subC, ih ys b (by simpa using h)]

theorem subC_borrow_le : ∀ (xs ys : List D) (b : Nat), b ≤ 1 → (R.subC xs ys b).2 ≤ 1 := by
  intro xs
  induction xs with
  | nil => intro ys b hb; cases ys <;> exact hb
  | cons x xs ih =>
    intro ys b hb
    cases ys with
    | nil => exact hb
    | cons y ys => simp only [subC]; split <;> omega

/-- One digit of the subtraction: the digit and the borrow together restore what was
    taken away. -/
theorem sub_digit (x y : D) {b : Nat} (hb : b ≤ 1) (h2 : 2 ≤ R.base) :
    let diff := (R.val x + R.base * R.base - (R.val y + b)) % (R.base * R.base)
    R.val (R.ofNat diff) + R.val y + b = R.val x + (if R.val x < diff then 1 else 0) * R.base := by
  intro diff
  have hx := R.val_lt x
  have hy := R.val_lt y
  have hB : 2 * R.base ≤ R.base * R.base := Nat.mul_le_mul_right _ h2
  by_cases h : R.val y + b ≤ R.val x
  · have hd : diff = R.val x - (R.val y + b) := by
      have : R.val x + R.base * R.base - (R.val y + b) = (R.val x - (R.val y + b)) + R.base * R.base := by omega
      show (R.val x + R.base * R.base - (R.val y + b)) % (R.base * R.base) = _
      rw [this, Nat.add_mod_right, Nat.mod_eq_of_lt (by omega)]
    rw [R.val_ofNat, Nat.mod_eq_of_lt (by omega), if_neg (by omega)]
    omega
  · have hd : diff = R.val x + R.base * R.base - (R.val y + b) := Nat.mod_eq_of_lt (by omega)
    have hsplit : diff = (R.val x + R.base - (R.val y + b)) + R.base * (R.base - 1) := by
      have : R.base * (R.base - 1) + R.base = R.base * R.base := by
        rw [← Nat.mul_succ, Nat.succ_eq_add_one, Nat.sub_add_cancel (by omega)]
      omega
    rw [R.val_ofNat, if_pos (by omega), hsplit, Nat.add_mul_mod_self_left, Nat.mod_eq_of_lt (by omega)]
    omega

theorem subC_value (h2 : 2 ≤ R.base) : ∀ (xs ys : List D) (b : Nat), b ≤ 1 → xs.length = ys.length →
    R.value (R.subC xs ys b).1 + R.value ys + b = R.value xs + (R.subC xs ys b).2 * R.base ^ xs.length := by
  intro xs
  induction xs with
  | nil =>
    intro ys b _ h
    have : ys = [] := List.eq_nil_of_length_eq_zero h.symm
    subst this
    simp [subC]
  | cons x xs ih =>
    intro ys b hb h
    rcases ys with _ | ⟨y, ys⟩
    · simp at h
    · have h' : xs.length = ys.length := by simpa using h
      have hr := ih ys b hb h'
      have hd := R.sub_digit x y (R.subC_borrow_le xs ys b hb) h2
      simp only [subC, value_cons, R.subC_length xs ys b h', List.length_cons, ← h', Nat.pow_succ]
      linear_combination R.base ^ xs.length * hd + hr

/-! ## One word against a list -/

/-- The list times `m`; the second component is the carry out of the first digit. -/
def mulWord (m : Nat) : List D → List D × Nat
  | [] => ([], 0)
  | x :: xs =>
    let r := mulWord m xs
    let cur := R.val x * m + r.2
    (R.ofNat cur :: r.1, cur / R.base)

theorem mulWord_length (m : Nat) (xs : List D) : (R.mulWord m xs).1.length = xs.length := by
  induction xs with
  | nil => rfl
  | cons x xs ih => simp [mulWord, ih]

theorem mulWord_value (m : Nat) (xs : List D) :
    R.value (R.mulWord m xs).1 + (R.mulWord m xs).2 * R.base ^ xs.length = R.value xs * m := by
  induction xs with
  | nil => simp [mulWord]
  | cons x xs ih =>
    have hs := R.split (R.val x * m + (R.mulWord m xs).2)
    simp only [mulWord, value_cons, R.mulWord_length m xs, List.length_cons, Nat.pow_succ]
    linear_combination R.base ^ xs.length * hs + ih

/-- The carry out of a product with one word is itself below the word. -/
theorem mulWord_carry {m : Nat} (hm : 0 < m) (xs : List D) : (R.mulWord m xs).2 < m := by
  by_contra h
  have hv := R.mulWord_value m xs
  have hlt := R.value_lt xs
  have h1 : m * R.base ^ xs.length ≤ (R.mulWord m xs).2 * R.base ^ xs.length := Nat.mul_le_mul_right _ (by omega)
  have h2 : R.value xs * m < R.base ^ xs.length * m := Nat.mul_lt_mul_of_pos_right hlt hm
  rw [Nat.mul_comm m] at h1
  omega

/-- The list divided by `d` with a remainder coming in from the left; the second
    component is the remainder. -/
def divWord (d : Nat) : Nat → List D → List D × Nat
  | rem, [] => ([], rem)
  | rem, x :: xs =>
    let cur := rem * R.base + R.val x
    let r := divWord d (cur % d) xs
    (R.ofNat (cur / d) :: r.1, r.2)

theorem divWord_length (d : Nat) : ∀ (xs : List D) (rem : Nat), (R.divWord d rem xs).1.length = xs.length := by
  intro xs
  induction xs with
  | nil => intro rem; rfl
  | cons x xs ih => intro rem; simp [divWord, ih]

theorem divWord_value {d : Nat} (hd : 0 < d) : ∀ (xs : List D) (rem : Nat), rem < d →
    R.value (R.divWord d rem xs).1 * d + (R.divWord d rem xs).2 = rem * R.base ^ xs.length + R.value xs ∧
      (R.divWord d rem xs).2 < d := by
  intro xs
  induction xs with
  | nil => intro rem h; simpa [divWord] using h
  | cons x xs ih =>
    intro rem h
    obtain ⟨hv, hr⟩ := ih ((rem * R.base + R.val x) % d) (Nat.mod_lt _ hd)
    refine ⟨?_, hr⟩
    -- the quotient digit fits: the incoming remainder is below the divisor
    have hx := R.val_lt x
    have hq : (rem * R.base + R.val x) / d < R.base := by
      rw [Nat.div_lt_iff_lt_mul hd]
      have : (rem + 1) * R.base ≤ d * R.base := Nat.mul_le_mul_right _ h
      rw [Nat.add_mul, Nat.one_mul] at this
      rw [Nat.mul_comm R.base]
      omega
    have hdiv := Nat.div_add_mod (rem * R.base + R.val x) d
    simp only [divWord, value_cons, R.divWord_length, List.length_cons, R.val_ofNat, Nat.mod_eq_of_lt hq, Nat.pow_succ]
    linear_combination R.base ^ xs.length * hdiv + hv

theorem divWord_quot {d : Nat} (hd : 0 < d) (xs : List D) : R.value (R.divWord d 0 xs).1 = R.value xs / d := by
  obtain ⟨hv, hr⟩ := R.divWord_value hd xs 0 hd
  rw [Nat.zero_mul, Nat.zero_add] at hv
  rw [← hv, Nat.add_comm, Nat.mul_comm, Nat.add_mul_div_left _ _ hd, Nat.div_eq_of_lt hr, Nat.zero_add]

end Radix

end Scytale.Lib
