/-
  Scytale.HashText — which texts `Hash::from_str` takes (crates/scytale-primitives/src/lib.rs).

  The loop slices the text two bytes at a time and leaves each slice to `u8::from_str_radix`. So a
  text of 64 bytes ends in one of three ways:
  - every pair is read, with a plus sign for a first digit taken as well;
  - a pair of whole characters is refused;
  - a slice ends inside a character, and the loop panics.
-/
import Scytale.Hex
import Scytale.Lib.Utf8

namespace Scytale

open Lib

theorem isContinuation_iff (b : UInt8) : isContinuation b = true ↔ Continuation b := by
  simp [isContinuation, Continuation]

/-- `char::is_ascii_hexdigit`. -/
def isHexDigit (c : Char) : Bool := ('0' ≤ c && c ≤ '9') || ('a' ≤ c && c ≤ 'f') || ('A' ≤ c && c ≤ 'F')

theorem isHexDigit_ascii {c : Char} (h : isHexDigit c = true) : c.toNat < 0x80 := by
  have hle {d : Char} (hcd : c ≤ d) : c.toNat ≤ d.toNat := Char.le_def.mp hcd
  simp only [isHexDigit, Bool.or_eq_true, Bool.and_eq_true, decide_eq_true_eq] at h
  rcases h with (⟨-, h⟩ | ⟨-, h⟩) | ⟨-, h⟩
  · exact Nat.lt_of_le_of_lt (hle h) (by decide)
  · exact Nat.lt_of_le_of_lt (hle h) (by decide)
  · exact Nat.lt_of_le_of_lt (hle h) (by decide)

theorem hexDigit_isSome {c : Char} (h : c.toNat < 0x80) : (hexDigit (UInt8.ofNat c.toNat)).isSome = isHexDigit c := by
  refine ascii_forall (P := fun c => (hexDigit (UInt8.ofNat c.toNat)).isSome = isHexDigit c) ?_ h
  decide +kernel

/-- The text without a leading `0x`. -/
def cleanText : List Char → List Char
  | '0' :: 'x' :: rest => rest
  | s => s

theorem cleanHex_utf8 (s : List Char) : cleanHex (utf8 s) = utf8 (cleanText s) := by
  unfold cleanHex
  split
  · rename_i rest heq
    obtain ⟨tail, rfl, htail⟩ := utf8_eq_cons (c := '0') heq
    obtain ⟨tail, rfl, hrest⟩ := utf8_eq_cons (c := 'x') htail
    exact hrest.symm
  · rename_i hno
    unfold cleanText
    split
    · rename_i rest
      exact absurd rfl (hno (utf8 rest))
    · rfl

namespace Hash256

/-- An optional `0x` and 64 hexadecimal digits. -/
def IsHashText (s : List Char) : Prop :=
  ∃ digits, digits.length = 64 ∧ digits.all isHexDigit = true ∧ (s = digits ∨ s = '0' :: 'x' :: digits)

/-- What `u8::from_str_radix` takes of two characters. -/
def readsPair (a b : Char) : Bool := (isHexDigit a || a == '+') && isHexDigit b

def readsPairs : List Char → Bool
  | [] => true
  | a :: b :: rest => readsPair a b && readsPairs rest
  | [_] => false

/-- After pairs that are read come two bytes of whole characters that are not. -/
def RefusedPair (text : List Char) : Prop := ∃ before pair after, text = before ++ pair ++ after ∧
  readsPairs before = true ∧ (utf8 pair).length = 2 ∧ readsPairs pair = false

theorem readsPair_ascii {a b : Char} (h : readsPair a b = true) : a.toNat < 0x80 ∧ b.toNat < 0x80 := by
  simp only [readsPair, Bool.and_eq_true, Bool.or_eq_true, beq_iff_eq] at h
  refine ⟨?_, isHexDigit_ascii h.2⟩
  rcases h.1 with ha | rfl
  · exact isHexDigit_ascii ha
  · decide

/-! ## One pair -/

theorem fromStrRadix_isSome (a b : UInt8) :
    (fromStrRadix a b).isSome = (((hexDigit a).isSome || a == 0x2b) && (hexDigit b).isSome) := by
  unfold fromStrRadix
  by_cases hplus : a = 0x2b
  · simp [hplus]
  · cases hexDigit a with
    | none => simp [hplus]
    | some _ => cases hexDigit b with
      | none => simp [hplus]
      | some _ => simp [hplus]

theorem fromStrRadix_ascii {a b : Char} (ha : a.toNat < 0x80) (hb : b.toNat < 0x80) :
    (fromStrRadix (UInt8.ofNat a.toNat) (UInt8.ofNat b.toNat)).isSome = readsPair a b := by
  have hplus : (UInt8.ofNat a.toNat == 0x2b) = (a == '+') := by
    refine ascii_forall (P := fun a => (UInt8.ofNat a.toNat == 0x2b) = (a == '+')) ?_ ha
    decide +kernel
  rw [fromStrRadix_isSome, hexDigit_isSome ha, hexDigit_isSome hb, hplus, readsPair]

/-- The first byte of a character of more than one is no digit and no sign. -/
theorem fromStrRadix_lead {a : UInt8} (h : 0xc0 ≤ a) (b : UInt8) : fromStrRadix a b = none := by
  have hno : ∀ a : UInt8, 0xc0 ≤ a → ((hexDigit a).isSome || a == 0x2b) = false := by
    apply byte_forall
    decide +kernel
  rw [← Option.not_isSome_iff_eq_none, fromStrRadix_isSome, hno a h, Bool.false_and]
  exact Bool.false_ne_true

/-- Two bytes of whole characters are read as the characters say. -/
theorem fromStrRadix_pair {pair : List Char} {a b : UInt8} (h : utf8 pair = [a, b]) :
    (fromStrRadix a b).isSome = readsPairs pair := by
  rcases utf8_eq_pair h with ⟨c, d, rfl, hc, hd, rfl, rfl⟩ | ⟨c, rfl, hlead⟩
  · rw [fromStrRadix_ascii hc hd, readsPairs, readsPairs, Bool.and_true]
  · rw [fromStrRadix_lead hlead]
    rfl

/-! ## The loop -/

theorem readsPairs_append {front back : List Char} (h : readsPairs front = true) :
    readsPairs (front ++ back) = readsPairs back := by
  induction front using readsPairs.induct with
  | case1 => rfl
  | case2 a b rest ih =>
    simp only [readsPairs, Bool.and_eq_true] at h
    rw [List.cons_append, List.cons_append, readsPairs, h.1, ih h.2, Bool.true_and]
  | case3 a => cases h

/-- Of a text that is read the first two bytes are two characters. -/
theorem readsPairs_cut {text : List Char} (h : readsPairs text = true) :
    text = [] ∨ ∃ front back, text = front ++ back ∧ (utf8 front).length = 2 ∧ readsPairs front = true := by
  match text with
  | [] => exact .inl rfl
  | a :: b :: rest =>
    simp only [readsPairs, Bool.and_eq_true] at h
    obtain ⟨ha, hb⟩ := readsPair_ascii h.1
    refine .inr ⟨[a, b], rest, rfl, ?_, ?_⟩
    · simp only [utf8_cons, utf8EncodeChar_ascii ha, utf8EncodeChar_ascii hb, utf8_nil, List.cons_append,
        List.nil_append, List.length_cons, List.length_nil]
    · simp only [readsPairs, h.1, Bool.and_self]

theorem not_straddles_of_cut {front back : List Char} (h : (utf8 front).length = 2) :
    ¬ Straddles 2 (front ++ back) := by
  rw [← h]
  exact not_straddles_append front back

theorem not_straddles_of_reads {text : List Char} (h : readsPairs text = true) : ¬ Straddles 2 text := by
  rcases readsPairs_cut h with rfl | ⟨front, back, rfl, hlen, -⟩
  · rintro ⟨before, c, after, heq, -⟩
    exact absurd heq.symm (List.append_ne_nil_of_right_ne_nil _ (List.cons_ne_nil _ _))
  · exact not_straddles_of_cut hlen

theorem not_straddles_of_refused {text : List Char} (h : RefusedPair text) : ¬ Straddles 2 text := by
  obtain ⟨before, pair, after, rfl, hbefore, hpair, -⟩ := h
  rcases readsPairs_cut hbefore with rfl | ⟨front, back, rfl, hlen, -⟩
  · exact not_straddles_of_cut hpair
  · rw [List.append_assoc, List.append_assoc]
    exact not_straddles_of_cut hlen

theorem not_reads_front {front : List Char} (back : List Char) (hlen : (utf8 front).length = 2)
    (h : readsPairs front = false) : readsPairs (front ++ back) = false := by
  rw [← Bool.not_eq_true]
  intro hall
  rcases readsPairs_cut hall with hnil | ⟨front', back', hcut, hlen', hreads⟩
  · rw [(List.append_eq_nil_iff.mp hnil).1] at hlen
    cases hlen
  · obtain rfl := cut_unique hcut (hlen.trans hlen'.symm)
    rw [h] at hreads
    cases hreads

theorem refused_front {front : List Char} (back : List Char) (hlen : (utf8 front).length = 2)
    (h : readsPairs front = false) : RefusedPair (front ++ back) :=
  ⟨[], front, back, rfl, rfl, hlen, h⟩

/-- A pair that is read leaves it to the rest of the text. -/
theorem refused_iff_back {front back : List Char} (hlen : (utf8 front).length = 2) (h : readsPairs front = true) :
    RefusedPair (front ++ back) ↔ RefusedPair back := by
  constructor
  · rintro ⟨before, pair, after, heq, hbefore, hpair, hno⟩
    rcases readsPairs_cut hbefore with rfl | ⟨front', before, rfl, hlen', hreads⟩
    · obtain rfl := cut_unique heq (hlen.trans hpair.symm)
      rw [h] at hno
      cases hno
    · rw [List.append_assoc, List.append_assoc] at heq
      obtain rfl := cut_unique heq (hlen.trans hlen'.symm)
      rw [readsPairs_append hreads] at hbefore
      exact ⟨before, pair, after, by rw [List.append_cancel_left heq, List.append_assoc], hbefore, hpair, hno⟩
  · rintro ⟨before, pair, after, rfl, hbefore, hpair, hno⟩
    refine ⟨front ++ before, pair, after, ?_, ?_, hpair, hno⟩
    · simp only [List.append_assoc]
    · rw [readsPairs_append h, hbefore]

/-- A slice of whole characters begins and ends where characters do. -/
theorem slice_of_cut {front : List Char} {a b : UInt8} (h : utf8 front = [a, b]) (back : List Char) :
    utf8 (front ++ back) = a :: b :: utf8 back ∧
      (isContinuation a || ((utf8 back).head?.map isContinuation).getD false) = false := by
  refine ⟨by rw [utf8_append, h, List.cons_append, List.cons_append, List.nil_append], ?_⟩
  have ha : isContinuation a = false := by
    rw [← Bool.not_eq_true, isContinuation_iff]
    exact not_continuation_head (by rw [h]; rfl)
  rw [ha, Bool.false_or]
  cases hhead : (utf8 back).head? with
  | none => rfl
  | some c =>
    rw [Option.map_some, Option.getD_some, ← Bool.not_eq_true, isContinuation_iff]
    exact not_continuation_head hhead

theorem parsePairs_refuses {front : List Char} {a b : UInt8} (h : utf8 front = [a, b]) (back : List Char)
    (hradix : fromStrRadix a b = none) :
    parsePairs (utf8 (front ++ back)) = .error (.serialization "invalid hex character") := by
  obtain ⟨hbytes, hslice⟩ := slice_of_cut h back
  rw [hbytes, parsePairs, hslice, hradix]
  simp only [Bool.false_eq_true, if_false]

theorem parsePairs_reads {front : List Char} {a b v : UInt8} (h : utf8 front = [a, b]) (back : List Char)
    (hradix : fromStrRadix a b = some v) :
    parsePairs (utf8 (front ++ back)) = (parsePairs (utf8 back)).map (v :: ·) := by
  obtain ⟨hbytes, hslice⟩ := slice_of_cut h back
  rw [hbytes, parsePairs, hslice, hradix]
  cases hrest : parsePairs (utf8 back) with
  | error e => simp only [Bool.false_eq_true, if_false, Except.map]
  | ok out => simp only [Bool.false_eq_true, if_false, Except.map]

/-- The loop panics at a slice that ends inside a character. -/
theorem parsePairs_straddles {text : List Char} (h : Straddles 2 text) :
    parsePairs (utf8 text) = .error .panicked := by
  obtain ⟨c, hget, hc⟩ := (continuation_iff_straddles 2 text).mpr h
  match hbytes : utf8 text, hget with
  | a :: b :: d :: rest, hget =>
    cases hget
    have hpanic : (isContinuation a || ((c :: rest).head?.map isContinuation).getD false) = true := by
      simp [(isContinuation_iff c).mpr hc]
    rw [parsePairs, if_pos hpanic]

/-- The three ends of the loop over a text of whole pairs of bytes. -/
theorem parsePairs_outcome (n : Nat) (text : List Char) (hlen : (utf8 text).length = 2 * n) :
    (readsPairs text = true ∧ ¬ RefusedPair text ∧ ∃ out, parsePairs (utf8 text) = .ok out) ∨
    (readsPairs text = false ∧ RefusedPair text ∧
      parsePairs (utf8 text) = .error (.serialization "invalid hex character")) ∨
    (readsPairs text = false ∧ ¬ RefusedPair text ∧ parsePairs (utf8 text) = .error .panicked) := by
  induction n generalizing text with
  | zero =>
    obtain rfl := eq_nil_of_utf8 (List.eq_nil_of_length_eq_zero hlen)
    refine .inl ⟨rfl, ?_, [], rfl⟩
    rintro ⟨before, pair, after, heq, -, hpair, -⟩
    have hnil := (List.append_eq_nil_iff.mp (List.append_eq_nil_iff.mp heq.symm).1).2
    rw [hnil] at hpair
    cases hpair
  | succ n ih =>
    have htwo : 2 ≤ (utf8 text).length := by omega
    rcases straddles_or_split htwo with hin | ⟨front, back, rfl, hfront⟩
    · refine .inr (.inr ⟨?_, fun h => not_straddles_of_refused h hin, parsePairs_straddles hin⟩)
      rw [← Bool.not_eq_true]
      exact fun h => not_straddles_of_reads h hin
    · obtain ⟨a, b, hbytes⟩ := List.length_eq_two.mp hfront
      have hradix := fromStrRadix_pair hbytes
      have hback : (utf8 back).length = 2 * n := by
        rw [utf8_append, List.length_append] at hlen
        omega
      cases hreads : readsPairs front with
      | false =>
        rw [hreads, Option.isSome_eq_false_iff, Option.isNone_iff_eq_none] at hradix
        exact .inr (.inl ⟨not_reads_front back hfront hreads, refused_front back hfront hreads,
          parsePairs_refuses hbytes back hradix⟩)
      | true =>
        rw [hreads] at hradix
        obtain ⟨v, hv⟩ := Option.isSome_iff_exists.mp hradix
        rw [parsePairs_reads hbytes back hv, readsPairs_append hreads, refused_iff_back hfront hreads]
        rcases ih back hback with ⟨hr, hno, out, hout⟩ | ⟨hr, href, herr⟩ | ⟨hr, hno, herr⟩
        · exact .inl ⟨hr, hno, v :: out, by rw [hout, Except.map]⟩
        · exact .inr (.inl ⟨hr, href, by rw [herr, Except.map]⟩)
        · exact .inr (.inr ⟨hr, hno, by rw [herr, Except.map]⟩)

/-! ## The texts that are taken -/

theorem fromStr_accepts (s : Bytes) : (∃ h, fromStr s = .ok h) ↔
    (cleanHex s).length = 64 ∧ ∃ out, parsePairs (cleanHex s) = .ok out := by
  unfold fromStr
  by_cases hlen : (cleanHex s).length = 64
  · rw [dif_neg (not_not.mpr hlen)]
    split
    · rename_i e herr
      simp [hlen, herr]
    · rename_i bytes hout
      simp [hlen, hout]
  · simp [hlen]

theorem fromStr_panics (s : Bytes) : fromStr s = .error .panicked ↔
    (cleanHex s).length = 64 ∧ parsePairs (cleanHex s) = .error .panicked := by
  unfold fromStr
  by_cases hlen : (cleanHex s).length = 64
  · rw [dif_neg (not_not.mpr hlen)]
    split
    · rename_i e herr
      simp [hlen, herr]
    · rename_i bytes hout
      simp [hlen, hout]
  · simp [hlen]

theorem utf8_length_of_digits {digits : List Char} (h : digits.all isHexDigit = true) :
    (utf8 digits).length = digits.length :=
  utf8_length_of_ascii fun c hc => isHexDigit_ascii (List.all_eq_true.mp h c hc)

theorem readsPairs_of_digits {digits : List Char} (heven : digits.length % 2 = 0) (h : digits.all isHexDigit = true) :
    readsPairs digits = true := by
  induction digits using readsPairs.induct with
  | case1 => rfl
  | case2 a b rest ih =>
    simp only [List.all_cons, Bool.and_eq_true] at h
    have hrest : rest.length % 2 = 0 := by
      rw [List.length_cons, List.length_cons] at heven
      omega
    rw [readsPairs, ih hrest h.2.2, readsPair, h.1, h.2.1]
    rfl
  | case3 a => cases heven

theorem cleanText_of_digits {digits : List Char} (h : digits.all isHexDigit = true) : cleanText digits = digits := by
  unfold cleanText
  split
  · simp only [List.all_cons, Bool.and_eq_true] at h
    exact absurd h.2.1 (by decide)
  · rfl

theorem isHashText_iff (s : List Char) : IsHashText s ↔
    (utf8 (cleanText s)).length = 64 ∧ (cleanText s).all isHexDigit = true := by
  constructor
  · rintro ⟨digits, hlen, hall, rfl | rfl⟩
    · rw [cleanText_of_digits hall]
      exact ⟨(utf8_length_of_digits hall).trans hlen, hall⟩
    · exact ⟨(utf8_length_of_digits hall).trans hlen, hall⟩
  · rintro ⟨hlen, hall⟩
    refine ⟨cleanText s, (utf8_length_of_digits hall).symm.trans hlen, hall, ?_⟩
    unfold cleanText
    split
    · exact .inr rfl
    · exact .inl rfl

theorem mem_toHex {bytes : Bytes} {b : UInt8} (h : b ∈ toHex bytes) : ∃ d, d < 16 ∧ b = digitHex d := by
  have hhalf : ∀ x : UInt8, x >>> 4 < 16 ∧ x &&& 0xf < 16 := by
    apply byte_forall
    decide +kernel
  obtain ⟨x, -, hx⟩ := List.mem_flatMap.mp h
  simp only [List.mem_cons, List.not_mem_nil, or_false] at hx
  rcases hx with rfl | rfl
  · exact ⟨_, (hhalf x).1, rfl⟩
  · exact ⟨_, (hhalf x).2, rfl⟩

theorem toHex_ascii {bytes : Bytes} {b : UInt8} (h : b ∈ toHex bytes) : b < 0x80 := by
  have hdigit : ∀ d : UInt8, d < 16 → digitHex d < 0x80 := by
    apply byte_forall
    decide +kernel
  obtain ⟨d, hd, rfl⟩ := mem_toHex h
  exact hdigit d hd

/-- The text a hash is shown as is read as the hash. -/
theorem fromStr_hexText (h : Hash256) : fromStr (utf8 (hexText h.bytes).toList) = .ok h := by
  rw [hexText, String.toList_ofList]
  show fromStr (utf8 (asciiText (toHex h.bytes))) = .ok h
  rw [utf8_asciiText fun _ => toHex_ascii, fromStr_toHex]

/-- A text is read without a panic and taken only when it is the digits of a hash exactly when its
    length is refused, it is such digits, or the loop comes to a pair of whole characters that it
    refuses. Every hash is read back from what it is shown as. -/
theorem fromStr_takes_hash_texts_iff (s : List Char) :
    (fromStr (utf8 s) ≠ .error .panicked ∧ ((∃ h, fromStr (utf8 s) = .ok h) ↔ IsHashText s) ∧
      ∀ h : Hash256, fromStr (utf8 (hexText h.bytes).toList) = .ok h) ↔
    (utf8 (cleanText s)).length ≠ 64 ∨ (cleanText s).all isHexDigit = true ∨ RefusedPair (cleanText s) := by
  rw [Ne, fromStr_panics, fromStr_accepts, cleanHex_utf8, isHashText_iff]
  by_cases hlen : (utf8 (cleanText s)).length = 64
  · have houtcome := parsePairs_outcome 32 (cleanText s) hlen
    have hdigits (hreads : readsPairs (cleanText s) = false) : (cleanText s).all isHexDigit = false := by
      rw [← Bool.not_eq_true]
      intro hall
      have heven : (cleanText s).length % 2 = 0 := by rw [← utf8_length_of_digits hall, hlen]
      rw [readsPairs_of_digits heven hall] at hreads
      cases hreads
    rcases houtcome with ⟨hreads, hno, out, hout⟩ | ⟨hreads, hrefused, herr⟩ | ⟨hreads, hno, herr⟩
    · simp [hlen, hno, hout, fromStr_hexText]
    · simp [hlen, hrefused, herr, hdigits hreads, fromStr_hexText]
    · simp [hlen, hno, herr, hdigits hreads]
  · simp [hlen, fromStr_hexText]

/-- `+f` for every byte. -/
def signedText : List Char := (List.replicate 32 ['+', 'f']).flatten

/-- A character of three bytes, and zeros up to 64 bytes. -/
def wideText : List Char := '€' :: List.replicate 61 '0'

/-- The signs are taken for digits, and the first slice ends inside the first character. -/
theorem signs_taken_and_slice_panics :
    fromStr (utf8 signedText) = .ok ⟨List.replicate 32 0x0f, rfl⟩ ∧ ¬ IsHashText signedText ∧
      fromStr (utf8 wideText) = .error .panicked := by
  refine ⟨?_, ?_, ?_⟩
  · decide +kernel
  · rw [isHashText_iff]
    decide +kernel
  · decide +kernel

end Hash256

end Scytale
