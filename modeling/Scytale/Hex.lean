/-
  Scytale.Hex — reading hexadecimal text (crates/scytale-primitives/src/lib.rs).

  A text is its UTF-8 bytes. `fromHex` goes over bytes; `Hash256.fromStr` slices the text,
  which panics off a character boundary, and leaves each pair to `u8::from_str_radix`, which
  takes a leading plus sign.
-/
import Scytale.Primitives

namespace Scytale

open Lib

inductive PrimitiveError where
  | invalidHashLength (length : Nat)
  | serialization (text : String)
  | panicked
  deriving DecidableEq

/-- The value of a hexadecimal digit. -/
def hexDigit (b : UInt8) : Option UInt8 :=
  if 0x30 ≤ b ∧ b ≤ 0x39 then some (b - 0x30)
  else if 0x61 ≤ b ∧ b ≤ 0x66 then some (b - 0x61 + 10)
  else if 0x41 ≤ b ∧ b ≤ 0x46 then some (b - 0x41 + 10)
  else none

/-- The text without a leading `0x`. -/
def cleanHex : Bytes → Bytes
  | 0x30 :: 0x78 :: rest => rest
  | s => s

/-- The loop over the pairs of digits. -/
def fromHexPairs : Bytes → Except PrimitiveError Bytes
  | hi :: lo :: rest =>
    match hexDigit hi, hexDigit lo with
    | some h, some l =>
      match fromHexPairs rest with
      | .error e => .error e
      | .ok out => .ok ((h <<< 4 ||| l) :: out)
    | _, _ => .error (.serialization "invalid hex character")
  | _ => .ok []

def fromHex (s : Bytes) : Except PrimitiveError Bytes :=
  if (cleanHex s).length % 2 ≠ 0 then .error (.serialization "odd hex length") else fromHexPairs (cleanHex s)

/-- A digit below 16. -/
def digitHex (d : UInt8) : UInt8 := if d < 10 then d + 0x30 else d - 10 + 0x61

def toHex (bytes : Bytes) : Bytes := bytes.flatMap fun b : UInt8 => [digitHex (b >>> 4), digitHex (b &&& 0xf)]

/-- Both digits of a byte are read back. -/
theorem hexDigit_digitHex (b : UInt8) : hexDigit (digitHex (b >>> 4)) = some (b >>> 4) ∧
    hexDigit (digitHex (b &&& 0xf)) = some (b &&& 0xf) ∧ b >>> 4 <<< 4 ||| b &&& 0xf = b := by
  revert b
  apply byte_forall
  decide +kernel

theorem fromHexPairs_toHex (bytes : Bytes) : fromHexPairs (toHex bytes) = .ok bytes := by
  induction bytes with
  | nil => rfl
  | cons b bytes ih =>
    obtain ⟨hhi, hlo, hb⟩ := hexDigit_digitHex b
    show fromHexPairs (digitHex (b >>> 4) :: digitHex (b &&& 0xf) :: toHex bytes) = .ok (b :: bytes)
    rw [fromHexPairs, hhi, hlo]
    simp only [ih, hb]

theorem toHex_inj {a b : Bytes} (h : toHex a = toHex b) : a = b := by
  have ha := fromHexPairs_toHex a
  rw [h, fromHexPairs_toHex b] at ha
  exact (Except.ok.inj ha).symm

/-- Bytes as they are shown, two digits each. -/
def hexText (bytes : Bytes) : String := String.ofList ((toHex bytes).map fun b => Char.ofNat b.toNat)

/-- `u8::from_str_radix` of a text of two bytes, in base 16. -/
def fromStrRadix (a b : UInt8) : Option UInt8 :=
  if a = 0x2b then hexDigit b
  else match hexDigit a, hexDigit b with
    | some h, some l => some (h * 16 + l)
    | _, _ => none

/-- A byte inside a character. -/
def isContinuation (b : UInt8) : Bool := 0x80 ≤ b && b < 0xc0

namespace Hash256

/-- The loop over the slices of two bytes. -/
def parsePairs : Bytes → Except PrimitiveError Bytes
  | a :: b :: rest =>
    if isContinuation a || (rest.head?.map isContinuation).getD false then .error .panicked
    else match fromStrRadix a b with
      | none => .error (.serialization "invalid hex character")
      | some v =>
        match parsePairs rest with
        | .error e => .error e
        | .ok out => .ok (v :: out)
  | _ => .ok []

theorem parsePairs_length : ∀ {s out : Bytes}, parsePairs s = .ok out → out.length = s.length / 2
  | [], out, h => by cases h; rfl
  | [a], out, h => by cases h; simp
  | a :: b :: rest, out, h => by
    unfold parsePairs at h
    split at h
    · cases h
    · split at h
      · cases h
      · split at h
        · cases h
        · rename_i tail htail
          cases h
          have := parsePairs_length htail
          simp only [List.length_cons, this]
          omega

def fromStr (s : Bytes) : Except PrimitiveError Hash256 :=
  if hlen : (cleanHex s).length ≠ 64 then .error (.invalidHashLength ((cleanHex s).length / 2))
  else match hout : parsePairs (cleanHex s) with
    | .error e => .error e
    | .ok bytes => .ok ⟨bytes, by have := parsePairs_length hout; omega⟩

/-- What is written of a byte is read back: the digits are no signs and no part of a longer
    character. -/
theorem fromStrRadix_digitHex (b : UInt8) : fromStrRadix (digitHex (b >>> 4)) (digitHex (b &&& 0xf)) = some b ∧
    isContinuation (digitHex (b >>> 4)) = false ∧ digitHex (b &&& 0xf) ≠ 0x78 := by
  revert b
  apply byte_forall
  decide +kernel

theorem toHex_length (bytes : Bytes) : (toHex bytes).length = 2 * bytes.length := by
  induction bytes with
  | nil => rfl
  | cons b bytes ih =>
    show (toHex bytes).length + 1 + 1 = 2 * (bytes.length + 1)
    omega

theorem parsePairs_toHex (bytes : Bytes) : parsePairs (toHex bytes) = .ok bytes := by
  induction bytes with
  | nil => rfl
  | cons b bytes ih =>
    obtain ⟨hread, hplain, -⟩ := fromStrRadix_digitHex b
    have hnext : ((toHex bytes).head?.map isContinuation).getD false = false := by
      cases bytes with
      | nil => rfl
      | cons c bytes => exact (fromStrRadix_digitHex c).2.1
    show parsePairs (digitHex (b >>> 4) :: digitHex (b &&& 0xf) :: toHex bytes) = .ok (b :: bytes)
    rw [parsePairs, hplain, hnext, hread]
    simp only [Bool.or_self, Bool.false_eq_true, if_false, ih]

theorem cleanHex_toHex (bytes : Bytes) : cleanHex (toHex bytes) = toHex bytes := by
  cases bytes with
  | nil => rfl
  | cons b bytes =>
    show cleanHex (digitHex (b >>> 4) :: digitHex (b &&& 0xf) :: toHex bytes) = _
    unfold cleanHex
    split
    · rename_i heq
      exact absurd (List.cons.inj (List.cons.inj heq).2).1 (fromStrRadix_digitHex b).2.2
    · rfl

/-- The digits of a hash are read as the hash. -/
theorem fromStr_toHex (h : Hash256) : fromStr (toHex h.bytes) = .ok h := by
  have hparse : parsePairs (cleanHex (toHex h.bytes)) = .ok h.bytes := by rw [cleanHex_toHex, parsePairs_toHex]
  unfold fromStr
  rw [dif_neg (by rw [cleanHex_toHex, toHex_length, h.size]; decide)]
  split
  · rename_i e he
    rw [hparse] at he
    cases he
  · rename_i bytes hbytes
    rw [hparse] at hbytes
    cases hbytes
    rfl

end Hash256

end Scytale
