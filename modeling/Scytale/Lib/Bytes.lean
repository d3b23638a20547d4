/-
  Scytale.Lib.Bytes — byte strings: fixed-width integers to and from bytes, and 64-bit
  limbs to and from big-endian bytes.

  - `leBytes_inj`: `k` little-endian bytes determine a number below `256 ^ k`.
  - `byteVal_beBytes`: big-endian bytes are the digits of the number.
  - `limbVal_chunkLimbs` / `byteVal_limbBytes`: regrouping bytes into limbs, or limbs into
    bytes, keeps the number.
-/
import Scytale.Lib.Radix

namespace Scytale.Lib

abbrev Bytes := List UInt8

/-- What `decide` shows of the 256 bytes holds of every byte. -/
theorem byte_forall {P : UInt8 → Prop} (h : ∀ n : Fin 256, P (UInt8.ofNat n.val)) (b : UInt8) : P b := by
  have hb := h ⟨b.toNat, b.toNat_lt⟩
  rwa [UInt8.ofNat_toNat] at hb

/-- Bytes as digits in base 256. -/
def byteRadix : Radix UInt8 where
  base := 256
  val := UInt8.toNat
  ofNat := UInt8.ofNat
  val_lt d := d.toNat_lt
  val_ofNat _ := UInt8.toNat_ofNat'
  val_inj _ _ h := UInt8.toNat_inj.mp h
  lt_iff _ _ := UInt8.lt_iff_toNat_lt

/-- 64-bit limbs as digits in base `2 ^ 64`. -/
def limbRadix : Radix UInt64 where
  base := 2 ^ 64
  val := UInt64.toNat
  ofNat := UInt64.ofNat
  val_lt d := d.toNat_lt
  val_ofNat _ := UInt64.toNat_ofNat'
  val_inj _ _ h := UInt64.toNat_inj.mp h
  lt_iff _ _ := UInt64.lt_iff_toNat_lt

def byteVal (bs : Bytes) : Nat := byteRadix.value bs

def limbVal (ls : List UInt64) : Nat := limbRadix.value ls

theorem byteVal_lt (bs : Bytes) : byteVal bs < 256 ^ bs.length := byteRadix.value_lt bs

theorem limbVal_lt (ls : List UInt64) : limbVal ls < (2 ^ 64) ^ ls.length := limbRadix.value_lt ls

theorem byteVal_cons (b : UInt8) (bs : Bytes) : byteVal (b :: bs) = b.toNat * 256 ^ bs.length + byteVal bs := rfl

theorem limbVal_cons (l : UInt64) (ls : List UInt64) :
    limbVal (l :: ls) = l.toNat * (2 ^ 64) ^ ls.length + limbVal ls := rfl

theorem byteVal_append (xs ys : Bytes) : byteVal (xs ++ ys) = byteVal xs * 256 ^ ys.length + byteVal ys :=
  byteRadix.value_append xs ys

theorem limbVal_append (xs ys : List UInt64) :
    limbVal (xs ++ ys) = limbVal xs * (2 ^ 64) ^ ys.length + limbVal ys := limbRadix.value_append xs ys

theorem byteVal_inj {xs ys : Bytes} (h : xs.length = ys.length) (hv : byteVal xs = byteVal ys) : xs = ys :=
  byteRadix.value_inj h hv

theorem limbVal_inj {xs ys : List UInt64} (h : xs.length = ys.length) (hv : limbVal xs = limbVal ys) : xs = ys :=
  limbRadix.value_inj h hv

theorem bytes_le_iff {xs ys : Bytes} (h : xs.length = ys.length) : xs ≤ ys ↔ byteVal xs ≤ byteVal ys := by
  rw [← Nat.not_lt, ← List.not_lt]
  exact not_congr (byteRadix.lt_iff_value h.symm)

/-- Byte strings of one length compare as the numbers they stand for. -/
theorem compare_bytes_lt {xs ys : Bytes} (h : xs.length = ys.length) :
    compare xs ys = .lt ↔ byteVal xs < byteVal ys := by
  refine Iff.trans ?_ (byteRadix.lt_iff_value h)
  clear h
  induction xs generalizing ys with
  | nil => cases ys <;> simp [compare, List.compareLex]
  | cons x xs ih =>
    cases ys with
    | nil => simp [compare, List.compareLex]
    | cons y ys =>
      have hx : compare x y = .lt ↔ x < y := Std.LawfulLTCmp.eq_lt_iff_lt
      have he : compare x y = .eq ↔ x = y := Std.compare_eq_iff_eq
      rw [List.compare_cons_cons, Ordering.then_eq_lt, hx, he, List.cons_lt_cons_iff]
      exact or_congr Iff.rfl (and_congr Iff.rfl ih)

theorem limbs_lt_iff {xs ys : List UInt64} (h : xs.length = ys.length) : xs < ys ↔ limbVal xs < limbVal ys :=
  limbRadix.lt_iff_value h

theorem byteVal_zeros (n : Nat) : byteVal (List.replicate n 0) = 0 := byteRadix.value_replicate rfl n

/-! ## Integers as bytes -/

/-- The `k` low bytes of `n`, least significant first. -/
def leBytes : Nat → Nat → Bytes
  | 0, _ => []
  | k + 1, n => UInt8.ofNat n :: leBytes k (n / 256)

/-- The `k` low bytes of `n`, most significant first. -/
def beBytes (k n : Nat) : Bytes := (leBytes k n).reverse

@[simp] theorem leBytes_length (k n : Nat) : (leBytes k n).length = k := by
  induction k generalizing n with
  | zero => rfl
  | succ k ih => simp [leBytes, ih]

@[simp] theorem beBytes_length (k n : Nat) : (beBytes k n).length = k := by simp [beBytes]

theorem byteVal_beBytes (k n : Nat) : byteVal (beBytes k n) = n % 256 ^ k := by
  induction k generalizing n with
  | zero => simp [beBytes, leBytes, byteVal, Nat.mod_one]
  | succ k ih =>
    have hb : beBytes (k + 1) n = beBytes k (n / 256) ++ [UInt8.ofNat n] := by simp [beBytes, leBytes]
    have h1 : byteVal [UInt8.ofNat n] = n % 256 := by
      show (UInt8.ofNat n).toNat * 256 ^ 0 + 0 = n % 256
      simp
    rw [hb, byteVal_append, ih, h1, Nat.pow_succ, Nat.mul_comm (256 ^ k), Nat.mod_mul]
    simp
    ring

/-- The number `k` little-endian bytes stand for. -/
def leNat (bs : Bytes) : Nat := byteVal bs.reverse

theorem leNat_leBytes (k n : Nat) : leNat (leBytes k n) = n % 256 ^ k := byteVal_beBytes k n

theorem leBytes_inj {k n m : Nat} (hn : n < 256 ^ k) (hm : m < 256 ^ k) (h : leBytes k n = leBytes k m) : n = m := by
  have := congrArg leNat h
  rwa [leNat_leBytes, leNat_leBytes, Nat.mod_eq_of_lt hn, Nat.mod_eq_of_lt hm] at this

/-- A byte string is the encoding of the number it decodes to. -/
theorem leBytes_leNat (bs : Bytes) : leBytes bs.length (leNat bs) = bs := by
  have h := byteVal_beBytes bs.length (leNat bs)
  have hlt : leNat bs < 256 ^ bs.length := by simpa [leNat] using byteVal_lt bs.reverse
  rw [Nat.mod_eq_of_lt hlt] at h
  have : beBytes bs.length (leNat bs) = bs.reverse := byteVal_inj (by simp) h
  simpa [beBytes] using this

def u32le (x : UInt32) : Bytes := leBytes 4 x.toNat

def u64le (x : UInt64) : Bytes := leBytes 8 x.toNat

@[simp] theorem u32le_length (x : UInt32) : (u32le x).length = 4 := leBytes_length 4 _

@[simp] theorem u64le_length (x : UInt64) : (u64le x).length = 8 := leBytes_length 8 _

theorem u32le_inj {x y : UInt32} (h : u32le x = u32le y) : x = y :=
  UInt32.toNat_inj.mp (leBytes_inj x.toNat_lt y.toNat_lt h)

theorem u64le_inj {x y : UInt64} (h : u64le x = u64le y) : x = y :=
  UInt64.toNat_inj.mp (leBytes_inj x.toNat_lt y.toNat_lt h)

/-! ## Limbs and bytes -/

/-- `u64::from_be_bytes`. -/
def beU64 (bs : Bytes) : UInt64 := UInt64.ofNat (byteVal bs)

/-- The first `n` groups of eight bytes, each read as one limb. -/
def chunkLimbs : Nat → Bytes → List UInt64
  | 0, _ => []
  | n + 1, bs => beU64 (bs.take 8) :: chunkLimbs n (bs.drop 8)

@[simp] theorem chunkLimbs_length (n : Nat) (bs : Bytes) : (chunkLimbs n bs).length = n := by
  induction n generalizing bs with
  | zero => rfl
  | succ n ih => simp [chunkLimbs, ih]

theorem beU64_toNat {bs : Bytes} (h : bs.length ≤ 8) : (beU64 bs).toNat = byteVal bs := by
  have hlt := byteVal_lt bs
  have hp : 256 ^ bs.length ≤ 256 ^ 8 := Nat.pow_le_pow_right (by decide) h
  rw [beU64, UInt64.toNat_ofNat', Nat.mod_eq_of_lt (by omega)]

theorem limbVal_chunkLimbs : ∀ (n : Nat) (bs : Bytes), bs.length = 8 * n → limbVal (chunkLimbs n bs) = byteVal bs := by
  intro n
  induction n with
  | zero =>
    intro bs h
    have : bs = [] := List.eq_nil_of_length_eq_zero (by omega)
    subst this
    rfl
  | succ n ih =>
    intro bs h
    have hd : (bs.drop 8).length = 8 * n := by rw [List.length_drop]; omega
    have ht : (bs.take 8).length ≤ 8 := by rw [List.length_take]; omega
    have hv : byteVal bs = byteVal (bs.take 8) * 256 ^ (8 * n) + byteVal (bs.drop 8) := by
      rw [← hd, ← byteVal_append, List.take_append_drop]
    have hp : (2 ^ 64 : Nat) = 256 ^ 8 := by norm_num
    rw [chunkLimbs, limbVal_cons, ih _ hd, beU64_toNat ht, chunkLimbs_length, hv, Nat.pow_mul, hp]

/-- Each limb's `to_be_bytes`, in order. -/
def limbBytes (ls : List UInt64) : Bytes := ls.flatMap fun l => beBytes 8 l.toNat

@[simp] theorem limbBytes_length (ls : List UInt64) : (limbBytes ls).length = 8 * ls.length := by
  induction ls with
  | nil => rfl
  | cons l ls ih => simp only [limbBytes, List.flatMap_cons, List.length_append, beBytes_length, List.length_cons] at *; omega

theorem byteVal_limbBytes (ls : List UInt64) : byteVal (limbBytes ls) = limbVal ls := by
  induction ls with
  | nil => rfl
  | cons l ls ih =>
    have hp : (256 ^ 8 : Nat) = 2 ^ 64 := by norm_num
    have hl : byteVal (beBytes 8 l.toNat) = l.toNat := by rw [byteVal_beBytes, hp, Nat.mod_eq_of_lt l.toNat_lt]
    have hlen : (List.flatMap (fun l => beBytes 8 l.toNat) ls).length = 8 * ls.length := limbBytes_length ls
    rw [limbBytes, List.flatMap_cons, byteVal_append, hl, hlen, Nat.pow_mul, limbVal_cons, hp]
    exact congrArg (_ + ·) ih

end Scytale.Lib
