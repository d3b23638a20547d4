/-
  Scytale.Core.AddressText — every text of an address, and the texts that are no address
  (crates/scytale-core/src/address.rs).

  `parse` slices the trimmed text at byte 4 before it knows that the byte begins a character.
  - `trim_utf8`: white space goes off both ends of a text character by character.
  - `parse_panics_iff`: the slice panics exactly when a character straddles byte 4.
  - `parse_bech32` / `parse_hex`: the two ways of reading a text whose first four bytes are ASCII.
-/
import Scytale.Core.Address
import Scytale.HashText

namespace Scytale.Core

open Lib

/-! ## White space -/

/-- The characters with the property `White_Space`, one for one with their bytes in `whiteSpace`. -/
def whiteSpaceChars : List Char :=
  ['\t', '\n', '\x0b', '\x0c', '\r', ' ', '\u0085', '\u00a0', '\u1680', '\u2000', '\u2001', '\u2002', '\u2003',
    '\u2004', '\u2005', '\u2006', '\u2007', '\u2008', '\u2009', '\u200a', '\u2028', '\u2029', '\u202f', '\u205f',
    '\u3000']

/-- `char::is_whitespace`. -/
def isWhitespace (c : Char) : Bool := whiteSpaceChars.contains c

/-- The text without the white space at its ends. -/
def trimText (s : List Char) : List Char := (s.dropWhile isWhitespace).rdropWhile isWhitespace

theorem whiteSpace_eq : whiteSpace = whiteSpaceChars.map String.utf8EncodeChar := by decide +kernel

/-- A search that only the bytes of `c` end finds them exactly when `c` is white space. -/
theorem find_whiteSpace {p : Bytes → Bool} {c : Char} (hp : ∀ d, p (String.utf8EncodeChar d) = true ↔ d = c) :
    whiteSpace.find? p = if isWhitespace c then some (String.utf8EncodeChar c) else none := by
  rw [whiteSpace_eq, List.find?_map]
  cases hfind : whiteSpaceChars.find? (p ∘ String.utf8EncodeChar) with
  | none =>
    have hno : isWhitespace c = false := by
      rw [← Bool.not_eq_true, isWhitespace, List.contains_iff_mem]
      exact fun hmem => List.find?_eq_none.mp hfind c hmem ((hp c).mpr rfl)
    rw [hno]
    rfl
  | some d =>
    have hd : (p ∘ String.utf8EncodeChar) d = true := List.find?_some hfind
    obtain rfl := (hp d).mp hd
    have hyes : isWhitespace d = true := List.contains_iff_mem.mpr (List.mem_of_find?_eq_some hfind)
    rw [hyes]
    rfl

theorem trimStartLoop_utf8 {f : Nat} {s : List Char} (hf : s.length ≤ f) :
    trimStartLoop f (utf8 s) = utf8 (s.dropWhile isWhitespace) := by
  induction f generalizing s with
  | zero =>
    obtain rfl := List.eq_nil_of_length_eq_zero (Nat.le_zero.mp hf)
    rfl
  | succ f ih =>
    cases s with
    | nil => rfl
    | cons c s =>
      have hfind := find_whiteSpace (p := fun w => w.isPrefixOf (utf8 (c :: s))) (c := c) fun d => by
        rw [List.isPrefixOf_iff_prefix]
        constructor
        · rintro ⟨rest, hrest⟩
          exact eq_of_prefix hrest
        · rintro rfl
          exact List.prefix_append _ _
      rw [trimStartLoop, hfind, List.dropWhile_cons]
      cases isWhitespace c with
      | false => rfl
      | true =>
        simp only [if_true, utf8_cons, List.drop_left]
        exact ih (Nat.le_of_succ_le_succ hf)

theorem trimEndLoop_utf8 {f : Nat} {s : List Char} (hf : s.length ≤ f) :
    trimEndLoop f (utf8 s) = utf8 (s.rdropWhile isWhitespace) := by
  induction f generalizing s with
  | zero =>
    obtain rfl := List.eq_nil_of_length_eq_zero (Nat.le_zero.mp hf)
    rfl
  | succ f ih =>
    rcases List.eq_nil_or_concat s with rfl | ⟨s, c, rfl⟩
    · rfl
    · have hbytes : utf8 (s.concat c) = utf8 s ++ String.utf8EncodeChar c := by simp
      have hfind := find_whiteSpace (p := fun w => w.isSuffixOf (utf8 (s.concat c))) (c := c) fun d => by
        rw [List.isSuffixOf_iff_suffix, hbytes]
        constructor
        · rintro ⟨rest, hrest⟩
          exact eq_of_suffix hrest
        · rintro rfl
          exact List.suffix_append _ _
      rw [trimEndLoop, hfind, List.concat_eq_append, List.rdropWhile_concat]
      cases isWhitespace c with
      | false => rfl
      | true =>
        have hlen : s.length ≤ f := by
          rw [List.length_concat] at hf
          exact Nat.le_of_succ_le_succ hf
        rw [← List.concat_eq_append, hbytes]
        simpa using ih hlen

/-- White space goes off both ends character by character. -/
theorem trim_utf8 (s : List Char) : trim (utf8 s) = utf8 (trimText s) := by
  rw [trim, trimStartLoop_utf8 (length_le_utf8 s), trimEndLoop_utf8 (length_le_utf8 _), trimText]

/-! ## What does not return -/

/-- Whether an error stands for a panic, here or where the digits are read. -/
def AddressError.isPanic : AddressError → Bool
  | .panicked => true
  | .hexDecode .panicked => true
  | _ => false

/-- What a call is asked to do with any text. -/
def Returns (result : Except AddressError Address) : Prop := ∀ e, result = .error e → e.isPanic = false

/-- `from_hex` goes over bytes and slices nothing. -/
theorem fromHexPairs_returns (s : Bytes) : fromHexPairs s ≠ .error .panicked := by
  fun_induction fromHexPairs s with
  | case1 hi lo rest h l hhi hlo e herr ih =>
    intro heq
    rw [herr] at ih
    exact ih heq
  | case2 => exact fun heq => nomatch heq
  | case3 => exact fun heq => nomatch heq
  | case4 => exact fun heq => nomatch heq

theorem fromHex_returns (s : Bytes) : fromHex s ≠ .error .panicked := by
  unfold fromHex
  split
  · exact fun heq => nomatch heq
  · exact fromHexPairs_returns _

namespace Address

theorem parseHex_returns (trimmed : Bytes) : Returns (parseHex trimmed) := by
  intro e h
  unfold parseHex at h
  split at h
  · split at h
    · rename_i e' herr
      cases h
      cases e' with
      | panicked => exact absurd herr (fromHex_returns _)
      | invalidHashLength length => rfl
      | serialization text => rfl
    · split at h
      · cases h
      · cases h
        rfl
  · cases h
    rfl

theorem parseBech32_returns (decode : Bech32Decode) (trimmed : Bytes) : Returns (parseBech32 decode trimmed) := by
  intro e h
  unfold parseBech32 at h
  split at h
  · cases h
    rfl
  · split at h
    · cases h
      rfl
    · split at h
      · cases h
        rfl
      · cases h

/-- The slice is the only panic: it comes exactly when a character straddles byte 4. -/
theorem parse_returns_iff (decode : Bech32Decode) (s : List Char) :
    Returns (parse decode (utf8 s)) ↔ ¬ Straddles 4 (trimText s) := by
  rw [← continuation_iff_straddles, parse, trim_utf8]
  cases hget : (utf8 (trimText s))[4]? with
  | none => simpa using parseHex_returns _
  | some next =>
    by_cases hnext : isContinuation next = true
    · have hcont := (isContinuation_iff next).mp hnext
      simp [hnext, hcont, Returns, AddressError.isPanic]
    · have hcont : ¬ Continuation next := fun hcont => hnext ((isContinuation_iff next).mpr hcont)
      simp only [hnext, hcont, Option.some.injEq, exists_eq_left', not_false_iff, iff_true, Bool.false_eq_true, if_false]
      split
      · exact parseBech32_returns decode _
      · exact parseHex_returns _

/-! ## The texts of an address -/

end Address

/-- `u8::to_ascii_uppercase`. -/
def toAsciiUppercase (b : UInt8) : UInt8 := if 0x61 ≤ b ∧ b ≤ 0x7a then b - 0x20 else b

/-- `Hrp::parse`, an `Hrp` being its text, with the text of its error. -/
abbrev HrpParse := Bytes → Except Bytes Bytes

/-- `bech32::encode::<Bech32>`, with the text of its error. -/
abbrev Bech32Encode := Bytes → Bytes → Except Bytes Bytes

/-- A byte that is neither white space nor part of a longer character. -/
def Visible (b : UInt8) : Prop := 0x20 < b ∧ b < 0x80

instance : DecidablePred Visible := fun b => inferInstanceAs (Decidable (0x20 < b ∧ b < 0x80))

theorem visible_uppercase {b : UInt8} (h : Visible b) : Visible (toAsciiUppercase b) := by
  revert b
  apply byte_forall
  decide +kernel

theorem isWhitespace_of_visible {b : UInt8} (h : Visible b) : isWhitespace (Char.ofNat b.toNat) = false := by
  revert b
  apply byte_forall
  decide +kernel

theorem dropWhile_none {l : List Char} (h : ∀ c ∈ l, isWhitespace c = false) : l.dropWhile isWhitespace = l := by
  cases l with
  | nil => rfl
  | cons c l => simp [h c List.mem_cons_self]

theorem trimText_surrounded {before text after : List Char} (hbefore : before.all isWhitespace = true)
    (htext : ∀ c ∈ text, isWhitespace c = false) (hafter : after.all isWhitespace = true) :
    trimText (before ++ text ++ after) = text := by
  have hback : (text ++ after).rdropWhile isWhitespace = text := by
    have hafter' : ∀ c ∈ after.reverse, isWhitespace c = true := fun c hc =>
      List.all_eq_true.mp hafter c (List.mem_reverse.mp hc)
    have htext' : ∀ c ∈ text.reverse, isWhitespace c = false := fun c hc => htext c (List.mem_reverse.mp hc)
    rw [List.rdropWhile, List.reverse_append, List.dropWhile_append_of_pos hafter', dropWhile_none htext',
      List.reverse_reverse]
  rw [trimText, List.append_assoc, List.dropWhile_append_of_pos (List.all_eq_true.mp hbefore)]
  cases text with
  | nil =>
    rw [List.nil_append, List.dropWhile_eq_nil_iff.mpr (List.all_eq_true.mp hafter)]
    rfl
  | cons c text =>
    have hc : ¬ isWhitespace c = true := by
      rw [htext c List.mem_cons_self]
      exact Bool.false_ne_true
    rw [List.cons_append, List.dropWhile_cons_of_neg hc]
    exact hback

/-- White space around a text of visible bytes goes, and nothing of the text. -/
theorem trim_surrounded {before after : List Char} {form : Bytes} (hbefore : before.all isWhitespace = true)
    (hform : ∀ b ∈ form, Visible b) (hafter : after.all isWhitespace = true) :
    trim (utf8 before ++ form ++ utf8 after) = form := by
  have hascii : utf8 (asciiText form) = form := utf8_asciiText fun b hb => (hform b hb).2
  have htext : ∀ c ∈ asciiText form, isWhitespace c = false := by
    intro c hc
    obtain ⟨b, hb, rfl⟩ := List.mem_map.mp hc
    exact isWhitespace_of_visible (hform b hb)
  calc trim (utf8 before ++ form ++ utf8 after)
      = trim (utf8 (before ++ asciiText form ++ after)) := by rw [utf8_append, utf8_append, hascii]
    _ = form := by rw [trim_utf8, trimText_surrounded hbefore htext hafter, hascii]

theorem isContinuation_of_visible {b : UInt8} (h : Visible b) : isContinuation b = false := by
  rw [← Bool.not_eq_true, isContinuation_iff]
  exact not_continuation_of_ascii h.2

namespace Address

def toBech32 (hrpParse : HrpParse) (encode : Bech32Encode) (address : Address) : Except AddressError Bytes :=
  match hrpParse address.hrp with
  | .error text => .error (.bech32Decode text)
  | .ok hrp =>
    match encode hrp address.hash with
    | .error text => .error (.bech32Decode text)
    | .ok text => .ok text

/-- A text that begins with the four characters of the default prefix is read as bech32. -/
theorem parse_bech32 (decode : Bech32Decode) {input start data : Bytes} (htrim : trim input = start ++ data)
    (hlen : start.length = 4) (hstart : start.map toAsciiLowercase = bech32Start) (hne : data ≠ [])
    (hvisible : ∀ b ∈ start ++ data, Visible b) : parse decode input = parseBech32 decode (start ++ data) := by
  cases data with
  | nil => exact absurd rfl hne
  | cons b data =>
    have hget : (start ++ b :: data)[4]? = some b := by
      rw [List.getElem?_append_right (Nat.le_of_eq hlen), hlen]
      rfl
    have htake : (start ++ b :: data).take 4 = start := by rw [← hlen, List.take_left]
    have hplain := isContinuation_of_visible (hvisible b (List.mem_append_right _ List.mem_cons_self))
    simp only [parse, htrim, hget, hplain, htake, hstart, if_true, Bool.false_eq_true, if_false]

/-- A text of visible bytes that begins otherwise is read as hex digits. -/
theorem parse_hex (decode : Bech32Decode) {input form : Bytes} (htrim : trim input = form)
    (hform : ∀ b ∈ form, Visible b) (hstart : (form.take 4).map toAsciiLowercase ≠ bech32Start) :
    parse decode input = parseHex form := by
  rw [parse, htrim]
  cases hget : form[4]? with
  | none => rfl
  | some b =>
    have hplain := isContinuation_of_visible (hform b (List.mem_of_getElem? hget))
    simp only [hplain, hstart, Bool.false_eq_true, if_false]

theorem parseHex_digits {form : Bytes} (hash : Hash256) (hform : cleanHex form = toHex hash.bytes) :
    parseHex form = .ok (new hash.bytes) := by
  have hlen : (toHex hash.bytes).length = 64 := by rw [Hash256.toHex_length, hash.size]
  have hread : fromHex (toHex hash.bytes) = .ok hash.bytes := by
    rw [fromHex, Hash256.cleanHex_toHex, if_neg (by rw [hlen]; decide), fromHexPairs_toHex]
  rw [parseHex, hform, if_pos hlen, hread]
  exact if_pos hash.size

/-- The characters of the part after the separator: `qpzry9x8gf2tvdw0s3jn54khce6mua7l`. -/
def bech32Charset : Bytes :=
  [0x71, 0x70, 0x7a, 0x72, 0x79, 0x39, 0x78, 0x38, 0x67, 0x66, 0x32, 0x74, 0x76, 0x64, 0x77, 0x30, 0x73, 0x33, 0x6a,
    0x6e, 0x35, 0x34, 0x6b, 0x68, 0x63, 0x65, 0x36, 0x6d, 0x75, 0x61, 0x37, 0x6c]

/-- What the crate does for one payload under the prefix `scy` (BIP-173): the text is the prefix, the
    separator and characters of the set, and it is decoded in lower and in upper case. -/
structure Bech32Correct (hrpParse : HrpParse) (encode : Bech32Encode) (decode : Bech32Decode) (hash text : Bytes) :
    Prop where
  hrp : hrpParse defaultHrp = .ok defaultHrp
  encoded : encode defaultHrp hash = .ok text
  spelled : ∃ data, text = bech32Start ++ data ∧ data ≠ [] ∧ ∀ b ∈ data, b ∈ bech32Charset
  lower : decode text = .ok (defaultHrp, hash)
  upper : ∃ hrp, decode (text.map toAsciiUppercase) = .ok (hrp, hash) ∧ hrp.map toAsciiLowercase = defaultHrp

/-- The texts of an address with the bech32 text `text`. -/
def forms (hash : Hash256) (text : Bytes) : List Bytes :=
  [text, text.map toAsciiUppercase, toHex hash.bytes, 0x30 :: 0x78 :: toHex hash.bytes]

section

variable {hrpParse : HrpParse} {encode : Bech32Encode} {decode : Bech32Decode} {hash : Hash256} {text input : Bytes}

theorem visible_charset : ∀ b ∈ bech32Charset, Visible b := by decide +kernel

theorem visible_digit {b : UInt8} (h : b ∈ toHex hash.bytes) : Visible b := by
  have hdigit : ∀ d : UInt8, d < 16 → Visible (digitHex d) := by
    apply byte_forall
    decide +kernel
  obtain ⟨d, hd, rfl⟩ := Hash256.mem_toHex h
  exact hdigit d hd

/-- No text of an address has white space in it, or a character of more than one byte. -/
theorem visible_forms (hcrate : Bech32Correct hrpParse encode decode hash.bytes text) :
    ∀ form ∈ forms hash text, ∀ b ∈ form, Visible b := by
  obtain ⟨data, rfl, -, hdata⟩ := hcrate.spelled
  have hlower : ∀ b ∈ bech32Start ++ data, Visible b := List.forall_mem_append.mpr
    ⟨by decide +kernel, fun b hb => visible_charset b (hdata b hb)⟩
  have hupper : ∀ b ∈ (bech32Start ++ data).map toAsciiUppercase, Visible b := by
    intro b hb
    obtain ⟨d, hd, rfl⟩ := List.mem_map.mp hb
    exact visible_uppercase (hlower d hd)
  have hprefixed : ∀ b ∈ 0x30 :: 0x78 :: toHex hash.bytes, Visible b :=
    List.forall_mem_cons.mpr ⟨by decide, List.forall_mem_cons.mpr ⟨by decide, fun _ => visible_digit⟩⟩
  intro form hform
  simp only [forms, List.mem_cons, List.not_mem_nil, or_false] at hform
  rcases hform with rfl | rfl | rfl | rfl
  · exact hlower
  · exact hupper
  · exact fun _ => visible_digit
  · exact hprefixed

theorem toBech32_new (hcrate : Bech32Correct hrpParse encode decode hash.bytes text) :
    (new hash.bytes).toBech32 hrpParse encode = .ok text := by
  have hnew : (new hash.bytes).hrp = defaultHrp := by
    show defaultHrp.map toAsciiLowercase = defaultHrp
    decide
  rw [toBech32, hnew, hcrate.hrp]
  simp only [new_hash, hcrate.encoded]

/-- What `decode` gives back under the prefix is the address. -/
theorem parseBech32_decoded {hrp trimmed : Bytes} (hdecode : decode trimmed = .ok (hrp, hash.bytes))
    (hhrp : hrp.map toAsciiLowercase = defaultHrp) : parseBech32 decode trimmed = .ok (new hash.bytes) := by
  simp only [parseBech32, hdecode, hhrp, hash.size, ne_eq, not_true_eq_false, if_false]
  rfl

theorem parse_lower (hcrate : Bech32Correct hrpParse encode decode hash.bytes text) (hvisible : ∀ b ∈ text, Visible b)
    (htrim : trim input = text) : parse decode input = .ok (new hash.bytes) := by
  obtain ⟨data, rfl, hne, -⟩ := hcrate.spelled
  rw [parse_bech32 decode htrim rfl (by decide) hne hvisible]
  exact parseBech32_decoded hcrate.lower (by decide)

theorem parse_upper (hcrate : Bech32Correct hrpParse encode decode hash.bytes text)
    (hvisible : ∀ b ∈ text.map toAsciiUppercase, Visible b) (htrim : trim input = text.map toAsciiUppercase) :
    parse decode input = .ok (new hash.bytes) := by
  obtain ⟨data, rfl, hne, -⟩ := hcrate.spelled
  obtain ⟨hrp, hdecode, hhrp⟩ := hcrate.upper
  rw [List.map_append] at hvisible htrim hdecode
  rw [parse_bech32 decode htrim rfl (by decide) (by simpa using hne) hvisible]
  exact parseBech32_decoded hdecode hhrp

theorem parse_digits (htrim : trim input = toHex hash.bytes) : parse decode input = .ok (new hash.bytes) := by
  have hstart : ((toHex hash.bytes).take 4).map toAsciiLowercase ≠ bech32Start := by
    have hdigit : ∀ d : UInt8, d < 16 → toAsciiLowercase (digitHex d) ≠ 0x73 := by
      apply byte_forall
      decide +kernel
    intro heq
    have hmem : 0x73 ∈ ((toHex hash.bytes).take 4).map toAsciiLowercase := by
      rw [heq]
      decide
    obtain ⟨b, hb, hlow⟩ := List.mem_map.mp hmem
    obtain ⟨d, hd, rfl⟩ := Hash256.mem_toHex (List.mem_of_mem_take hb)
    exact hdigit d hd hlow
  rw [parse_hex decode htrim (fun _ => visible_digit) hstart]
  exact parseHex_digits hash (Hash256.cleanHex_toHex _)

theorem parse_prefixed (hvisible : ∀ b ∈ 0x30 :: 0x78 :: toHex hash.bytes, Visible b)
    (htrim : trim input = 0x30 :: 0x78 :: toHex hash.bytes) : parse decode input = .ok (new hash.bytes) := by
  have hstart : ((0x30 :: 0x78 :: toHex hash.bytes).take 4).map toAsciiLowercase ≠ bech32Start := by
    intro heq
    exact absurd (List.cons.inj heq).1 (by decide)
  rw [parse_hex decode htrim hvisible hstart]
  exact parseHex_digits hash rfl

/-- A text is read without a panic exactly when no character of it, trimmed, straddles byte 4; and
    every text of an address is read as the address, whatever white space is around it. -/
theorem parse_returns_and_converges_iff (hcrate : Bech32Correct hrpParse encode decode hash.bytes text)
    (s : List Char) :
    (Returns (parse decode (utf8 s)) ∧ (new hash.bytes).toBech32 hrpParse encode = .ok text ∧
      ∀ form ∈ forms hash text, ∀ before after : List Char, before.all isWhitespace = true →
        after.all isWhitespace = true → parse decode (utf8 before ++ form ++ utf8 after) = .ok (new hash.bytes)) ↔
    ¬ Straddles 4 (trimText s) := by
  rw [parse_returns_iff]
  refine ⟨fun h => h.1, fun h => ⟨h, toBech32_new hcrate, ?_⟩⟩
  intro form hform before after hbefore hafter
  have hvisible := visible_forms hcrate form hform
  have htrim := trim_surrounded hbefore hvisible hafter
  simp only [forms, List.mem_cons, List.not_mem_nil, or_false] at hform
  rcases hform with rfl | rfl | rfl | rfl
  · exact parse_lower hcrate hvisible htrim
  · exact parse_upper hcrate hvisible htrim
  · exact parse_digits htrim
  · exact parse_prefixed hvisible htrim

end

/-- The hash of the founder's address, which the genesis block pays to. -/
def founderHash : Hash256 := ⟨beBytes 32 0x9bbccb9b6620952fb8e5608e75b58589f4551ac5d1f8699cbe3f93dab94ff40f, rfl⟩

/-- `GENESIS_FOUNDER_ADDRESS`. -/
def founderText : Bytes := utf8 "scy1nw7vhxmxyz2jlw89vz88tdv938692xk968uxn89787fa4w207s8sddvv3q".toList

/-- The crate on the founder's address alone. -/
def founderEncode : Bech32Encode := fun hrp hash =>
  if hrp = defaultHrp ∧ hash = founderHash.bytes then .ok founderText else .error []

def founderDecode : Bech32Decode := fun text =>
  if text = founderText then .ok (defaultHrp, founderHash.bytes)
  else if text = founderText.map toAsciiUppercase then .ok (defaultHrp.map toAsciiUppercase, founderHash.bytes)
  else .error []

theorem founder_crate : Bech32Correct .ok founderEncode founderDecode founderHash.bytes founderText where
  hrp := rfl
  encoded := by decide +kernel
  spelled := ⟨founderText.drop 4, by decide +kernel, by decide +kernel, by decide +kernel⟩
  lower := by decide +kernel
  upper := ⟨defaultHrp.map toAsciiUppercase, by decide +kernel, by decide⟩

theorem parse_returns_and_converges_founder : Returns (parse founderDecode (utf8 "scy1€".toList)) ∧
    (new founderHash.bytes).toBech32 .ok founderEncode = .ok founderText ∧
    ∀ form ∈ forms founderHash founderText, ∀ before after : List Char, before.all isWhitespace = true →
      after.all isWhitespace = true →
        parse founderDecode (utf8 before ++ form ++ utf8 after) = .ok (new founderHash.bytes) := by
  refine (parse_returns_and_converges_iff founder_crate "scy1€".toList).mpr ?_
  rw [← continuation_iff_straddles]
  rintro ⟨b, hget, hcont⟩
  have hbyte : (utf8 (trimText "scy1€".toList))[4]? = some 0xe2 := by decide +kernel
  rw [hbyte] at hget
  cases hget
  exact absurd hcont (by decide)

/-- Three letters and a character of three bytes. -/
theorem slice_inside_character_panics : parse founderDecode (utf8 "scy€".toList) = .error .panicked := by
  decide +kernel

end Address

end Scytale.Core
