/-
  Scytale.Core.Address — addresses and the texts they are read from
  (crates/scytale-core/src/address.rs).

  A text is its UTF-8 bytes. One address has many texts: bech32 in lower and in upper case, hex
  digits of either case with `0x` or without, each with white space around it.
  - `parse_ok`: what is read has the default prefix and 32 bytes.
-/
import Scytale.Hex

namespace Scytale

open Lib

structure Core.Address where
  hrp : Bytes
  hash : Bytes
  deriving DecidableEq

namespace Core

/-- `bech32::decode`, with the text of its error. -/
abbrev Bech32Decode := Bytes → Except Bytes (Bytes × Bytes)

inductive AddressError where
  | invalidHrp (expected got : Bytes)
  | invalidLength (length : Nat)
  | bech32Decode (text : Bytes)
  | hexDecode (e : PrimitiveError)
  | unrecognizedFormat
  /-- A slice that ends inside a character. -/
  | panicked
  deriving DecidableEq

/-! ## White space -/

/-- The characters with the property `White_Space`. -/
def whiteSpace : List Bytes :=
  [[0x09], [0x0a], [0x0b], [0x0c], [0x0d], [0x20], [0xc2, 0x85], [0xc2, 0xa0], [0xe1, 0x9a, 0x80], [0xe2, 0x80, 0x80],
    [0xe2, 0x80, 0x81], [0xe2, 0x80, 0x82], [0xe2, 0x80, 0x83], [0xe2, 0x80, 0x84], [0xe2, 0x80, 0x85],
    [0xe2, 0x80, 0x86], [0xe2, 0x80, 0x87], [0xe2, 0x80, 0x88], [0xe2, 0x80, 0x89], [0xe2, 0x80, 0x8a],
    [0xe2, 0x80, 0xa8], [0xe2, 0x80, 0xa9], [0xe2, 0x80, 0xaf], [0xe2, 0x81, 0x9f], [0xe3, 0x80, 0x80]]

/-- As many rounds as there are bytes are enough: a round takes one off at least. -/
def trimStartLoop : Nat → Bytes → Bytes
  | 0, s => s
  | f + 1, s =>
    match whiteSpace.find? fun w => w.isPrefixOf s with
    | some w => trimStartLoop f (s.drop w.length)
    | none => s

def trimEndLoop : Nat → Bytes → Bytes
  | 0, s => s
  | f + 1, s =>
    match whiteSpace.find? fun w => w.isSuffixOf s with
    | some w => trimEndLoop f (s.take (s.length - w.length))
    | none => s

/-- `str::trim`. -/
def trim (s : Bytes) : Bytes :=
  let s := trimStartLoop s.length s
  trimEndLoop s.length s

/-! ## Addresses -/

/-- `u8::to_ascii_lowercase`. -/
def toAsciiLowercase (b : UInt8) : UInt8 := if 0x41 ≤ b ∧ b ≤ 0x5a then b + 0x20 else b

namespace Address

/-- `"scy"`. -/
def defaultHrp : Bytes := [0x73, 0x63, 0x79]

/-- `"scy1"`. -/
def bech32Start : Bytes := [0x73, 0x63, 0x79, 0x31]

def withHrp (hrp hash : Bytes) : Address := ⟨hrp.map toAsciiLowercase, hash⟩

def new (hash : Bytes) : Address := withHrp defaultHrp hash

/-- What is read as hex digits. -/
def parseHex (trimmed : Bytes) : Except AddressError Address :=
  if (cleanHex trimmed).length = 64 then
    match fromHex (cleanHex trimmed) with
    | .error e => .error (.hexDecode e)
    | .ok bytes => if bytes.length = 32 then .ok (new bytes) else .error .unrecognizedFormat
  else .error .unrecognizedFormat

/-- What is read as bech32. -/
def parseBech32 (decode : Bech32Decode) (trimmed : Bytes) : Except AddressError Address :=
  match decode trimmed with
  | .error text => .error (.bech32Decode text)
  | .ok (hrp, data) =>
    if hrp.map toAsciiLowercase ≠ defaultHrp then .error (.invalidHrp defaultHrp hrp)
    else if data.length ≠ 32 then .error (.invalidLength data.length)
    else .ok ⟨defaultHrp, data⟩

def parse (decode : Bech32Decode) (input : Bytes) : Except AddressError Address :=
  match (trim input)[4]? with
  | none => parseHex (trim input)
  | some next =>
    if isContinuation next then .error .panicked
    else if ((trim input).take 4).map toAsciiLowercase = bech32Start then parseBech32 decode (trim input)
    else parseHex (trim input)

/-! ## What is read -/

@[simp] theorem new_hash (hash : Bytes) : (new hash).hash = hash := rfl

theorem parseHex_ok {trimmed : Bytes} {address : Address} (h : parseHex trimmed = .ok address) :
    address.hash.length = 32 ∧ address = new address.hash := by
  unfold parseHex at h
  split at h
  · split at h
    · cases h
    · split at h
      · rename_i hlen
        cases h
        exact ⟨hlen, rfl⟩
      · cases h
  · cases h

theorem parseBech32_ok {decode : Bech32Decode} {trimmed : Bytes} {address : Address}
    (h : parseBech32 decode trimmed = .ok address) : address.hash.length = 32 ∧ address = new address.hash := by
  unfold parseBech32 at h
  split at h
  · cases h
  · split at h
    · cases h
    · split at h
      · cases h
      · rename_i hlen
        cases h
        exact ⟨not_not.mp hlen, rfl⟩

/-- Every address that is read has the default prefix and 32 bytes. -/
theorem parse_ok {decode : Bech32Decode} {input : Bytes} {address : Address} (h : parse decode input = .ok address) :
    address.hash.length = 32 ∧ address = new address.hash := by
  unfold parse at h
  split at h
  · exact parseHex_ok h
  · split at h
    · cases h
    · split at h
      · exact parseBech32_ok h
      · exact parseHex_ok h

end Address

end Core

end Scytale
