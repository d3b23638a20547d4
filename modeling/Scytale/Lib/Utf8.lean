/-
  Scytale.Lib.Utf8 — texts and their UTF-8 bytes.

  A text is a list of Unicode scalar values. The bytes show where a character begins: its first
  byte is never a continuation byte, the others always are.
  - `eq_of_prefix` / `eq_of_suffix`: the bytes show which character a text begins or ends with.
  - `continuation_iff_straddles`: a continuation byte is at an offset exactly when a character
    begins before the offset and ends after it.
-/
import Scytale.Lib.Bytes

namespace Scytale.Lib

def utf8 (text : List Char) : Bytes := text.flatMap String.utf8EncodeChar

def Continuation (b : UInt8) : Prop := 0x80 ≤ b ∧ b < 0xc0

instance : DecidablePred Continuation := fun b => inferInstanceAs (Decidable (0x80 ≤ b ∧ b < 0xc0))

@[simp] theorem utf8_nil : utf8 [] = [] := rfl

@[simp] theorem utf8_cons (c : Char) (text : List Char) : utf8 (c :: text) = String.utf8EncodeChar c ++ utf8 text := rfl

@[simp] theorem utf8_append (a b : List Char) : utf8 (a ++ b) = utf8 a ++ utf8 b := List.flatMap_append

/-! ## One character -/

theorem continuation_ofNat {n : Nat} (h : n < 64) : Continuation (UInt8.ofNat (n + 0x80)) := by
  have hn : (UInt8.ofNat (n + 0x80)).toNat = n + 0x80 := by
    rw [UInt8.toNat_ofNat']
    omega
  constructor
  · rw [UInt8.le_iff_toNat_le, hn]
    exact Nat.le_add_left _ _
  · rw [UInt8.lt_iff_toNat_lt, hn]
    exact Nat.add_lt_add_right h _

theorem lead_ofNat {n k : Nat} (hk : 0xc0 ≤ k) (h : n + k < 256) : 0xc0 ≤ UInt8.ofNat (n + k) := by
  have hn : (UInt8.ofNat (n + k)).toNat = n + k := by
    rw [UInt8.toNat_ofNat']
    omega
  rw [UInt8.le_iff_toNat_le, hn]
  exact Nat.le_trans hk (Nat.le_add_left _ _)

/-- The two shapes of a character: one byte below `0x80`, or a byte from `0xc0` on and then
    continuation bytes. -/
theorem utf8EncodeChar_cases (c : Char) : (c.toNat < 0x80 ∧ String.utf8EncodeChar c = [UInt8.ofNat c.toNat]) ∨
    ∃ lead tail, String.utf8EncodeChar c = lead :: tail ∧ 0xc0 ≤ lead ∧ tail ≠ [] ∧ ∀ b ∈ tail, Continuation b := by
  have hlow (n : Nat) : Continuation (UInt8.ofNat (n % 64 + 0x80)) := continuation_ofNat (Nat.mod_lt n (by decide))
  fun_cases String.utf8EncodeChar c with
  | case1 v hv => exact .inl ⟨Nat.lt_succ_of_le hv, rfl⟩
  | case2 v =>
    exact .inr ⟨_, _, rfl, lead_ofNat (by decide) (by omega), List.cons_ne_nil _ _, List.forall_mem_singleton.mpr (hlow _)⟩
  | case3 v =>
    refine .inr ⟨_, _, rfl, lead_ofNat (by decide) (by omega), List.cons_ne_nil _ _, ?_⟩
    exact List.forall_mem_cons.mpr ⟨hlow _, List.forall_mem_singleton.mpr (hlow _)⟩
  | case4 v =>
    refine .inr ⟨_, _, rfl, lead_ofNat (by decide) (by omega), List.cons_ne_nil _ _, ?_⟩
    exact List.forall_mem_cons.mpr ⟨hlow _, List.forall_mem_cons.mpr ⟨hlow _, List.forall_mem_singleton.mpr (hlow _)⟩⟩

theorem utf8EncodeChar_ascii {c : Char} (h : c.toNat < 0x80) : String.utf8EncodeChar c = [UInt8.ofNat c.toNat] := by
  fun_cases String.utf8EncodeChar c with
  | case1 v hv => rfl
  | case2 v hv => exact absurd (Nat.le_of_lt_succ h) hv
  | case3 v hv => exact absurd (Nat.le_of_lt_succ h) hv
  | case4 v hv => exact absurd (Nat.le_of_lt_succ h) hv

theorem utf8_length_cons (c : Char) (text : List Char) : (utf8 (c :: text)).length = c.utf8Size + (utf8 text).length := by
  rw [utf8_cons, List.length_append, String.length_utf8EncodeChar]

/-- A text's bytes show its first character. -/
theorem eq_of_prefix {a c : Char} {x y : Bytes} (h : String.utf8EncodeChar a ++ x = String.utf8EncodeChar c ++ y) :
    a = c := by
  have hread (c : Char) (rest : Bytes) :
      ((String.utf8EncodeChar c ++ rest).toByteArray).utf8DecodeChar? 0 = some c := by
    rw [List.toByteArray_append]
    exact ByteArray.utf8DecodeChar?_utf8EncodeChar_append
  have ha := hread a x
  rw [h, hread c y] at ha
  exact (Option.some.inj ha).symm

theorem not_continuation_of_ascii {b : UInt8} (h : b < 0x80) : ¬ Continuation b :=
  fun hb => absurd hb.1 (UInt8.not_le.mpr h)

theorem not_continuation_of_lead {b : UInt8} (h : 0xc0 ≤ b) : ¬ Continuation b :=
  fun hb => absurd hb.2 (UInt8.not_lt.mpr h)

theorem ofNat_lt_of_ascii {n : Nat} (h : n < 0x80) : UInt8.ofNat n < 0x80 := by
  rw [UInt8.lt_iff_toNat_lt, UInt8.toNat_ofNat', Nat.mod_eq_of_lt (by omega)]
  exact h

/-- What both shapes have in common. -/
theorem utf8EncodeChar_split (c : Char) : ∃ first later, String.utf8EncodeChar c = first :: later ∧
    ¬ Continuation first ∧ ∀ b ∈ later, Continuation b := by
  rcases utf8EncodeChar_cases c with ⟨hlt, hc⟩ | ⟨lead, tail, hc, hlead, -, htail⟩
  · exact ⟨_, [], hc, not_continuation_of_ascii (ofNat_lt_of_ascii hlt), fun _ hb => absurd hb List.not_mem_nil⟩
  · exact ⟨lead, tail, hc, not_continuation_of_lead hlead, htail⟩

/-- No character ends with the bytes of another: they would begin with a continuation byte. -/
theorem eq_of_suffix_encode {a c : Char} {x : Bytes} (h : String.utf8EncodeChar c = x ++ String.utf8EncodeChar a) :
    x = [] := by
  obtain ⟨first, later, hc, -, hlater⟩ := utf8EncodeChar_split c
  obtain ⟨first', later', ha, hfirst', -⟩ := utf8EncodeChar_split a
  cases x with
  | nil => rfl
  | cons b x =>
    rw [hc, ha, List.cons_append] at h
    have hmem : first' ∈ later := by
      rw [(List.cons.inj h).2]
      exact List.mem_append_right _ List.mem_cons_self
    exact absurd (hlater _ hmem) hfirst'

/-- A text's bytes show its last character. -/
theorem eq_of_suffix {a c : Char} {x y : Bytes} (h : x ++ String.utf8EncodeChar a = y ++ String.utf8EncodeChar c) :
    a = c := by
  have heq : String.utf8EncodeChar a = String.utf8EncodeChar c := by
    rcases List.append_eq_append_iff.mp h with ⟨m, -, hm⟩ | ⟨m, -, hm⟩
    · rw [hm, eq_of_suffix_encode hm, List.nil_append]
    · rw [hm, eq_of_suffix_encode hm, List.nil_append]
  exact eq_of_prefix (congrArg (· ++ []) heq)

theorem utf8_eq_cons {text : List Char} {c : Char} {rest : Bytes} (h : utf8 text = String.utf8EncodeChar c ++ rest) :
    ∃ tail, text = c :: tail ∧ utf8 tail = rest := by
  cases text with
  | nil =>
    obtain ⟨first, later, hc, -, -⟩ := utf8EncodeChar_split c
    rw [hc] at h
    cases h
  | cons d text =>
    obtain rfl := eq_of_prefix h
    exact ⟨text, rfl, List.append_cancel_left h⟩

theorem length_le_utf8 (text : List Char) : text.length ≤ (utf8 text).length := by
  induction text with
  | nil => exact Nat.le_refl 0
  | cons c text ih =>
    have hpos := c.utf8Size_pos
    rw [utf8_length_cons, List.length_cons]
    omega

/-! ## One byte and two -/

theorem eq_nil_of_utf8 {text : List Char} (h : utf8 text = []) : text = [] := by
  have hle := length_le_utf8 text
  rw [h] at hle
  exact List.eq_nil_of_length_eq_zero (Nat.le_zero.mp hle)

theorem utf8_eq_singleton {text : List Char} {b : UInt8} (h : utf8 text = [b]) :
    ∃ c, text = [c] ∧ c.toNat < 0x80 ∧ b = UInt8.ofNat c.toNat := by
  cases text with
  | nil => cases h
  | cons c text =>
    rw [utf8_cons] at h
    rcases utf8EncodeChar_cases c with ⟨hc, henc⟩ | ⟨lead, tail, henc, -, htail, -⟩
    · rw [henc] at h
      obtain ⟨rfl, hrest⟩ := List.cons.inj h
      exact ⟨c, by rw [eq_nil_of_utf8 hrest], hc, rfl⟩
    · rw [henc] at h
      exact absurd (List.append_eq_nil_iff.mp (List.cons.inj h).2).1 htail

theorem utf8_eq_pair {text : List Char} {a b : UInt8} (h : utf8 text = [a, b]) :
    (∃ c d, text = [c, d] ∧ c.toNat < 0x80 ∧ d.toNat < 0x80 ∧ a = UInt8.ofNat c.toNat ∧ b = UInt8.ofNat d.toNat) ∨
      ∃ c, text = [c] ∧ 0xc0 ≤ a := by
  cases text with
  | nil => cases h
  | cons c text =>
    rw [utf8_cons] at h
    rcases utf8EncodeChar_cases c with ⟨hc, henc⟩ | ⟨lead, tail, henc, hlead, htail, -⟩
    · rw [henc] at h
      obtain ⟨ha, hrest⟩ := List.cons.inj h
      obtain ⟨d, rfl, hd, hb⟩ := utf8_eq_singleton hrest
      exact .inl ⟨c, d, rfl, hc, hd, ha.symm, hb⟩
    · rw [henc] at h
      obtain ⟨rfl, hrest⟩ := List.cons.inj h
      rcases List.append_eq_singleton_iff.mp hrest with ⟨hnil, -⟩ | ⟨-, hnil⟩
      · exact absurd hnil htail
      · exact .inr ⟨c, by rw [eq_nil_of_utf8 hnil], hlead⟩

/-! ## Where characters begin -/

theorem not_continuation_head {text : List Char} {b : UInt8} (h : (utf8 text).head? = some b) : ¬ Continuation b := by
  cases text with
  | nil => cases h
  | cons c text =>
    obtain ⟨first, later, hc, hfirst, -⟩ := utf8EncodeChar_split c
    rw [utf8_cons, hc] at h
    cases h
    exact hfirst

/-- Some character begins before the offset and ends after it. -/
def Straddles (k : Nat) (text : List Char) : Prop := ∃ before c after, text = before ++ c :: after ∧
  (utf8 before).length < k ∧ k < (utf8 before).length + c.utf8Size

theorem straddles_cons {k : Nat} {c : Char} {text : List Char} : Straddles k (c :: text) ↔
    (0 < k ∧ k < c.utf8Size) ∨ (c.utf8Size ≤ k ∧ Straddles (k - c.utf8Size) text) := by
  constructor
  · rintro ⟨before, d, after, htext, hlt, hgt⟩
    cases before with
    | nil =>
      cases htext
      left
      simpa using And.intro hlt hgt
    | cons _ before =>
      cases htext
      rw [utf8_length_cons] at hlt hgt
      exact .inr ⟨by omega, before, d, after, rfl, by omega, by omega⟩
  · rintro (⟨hpos, hlt⟩ | ⟨hle, before, d, after, rfl, hlt, hgt⟩)
    · exact ⟨[], c, text, rfl, hpos, by simpa using hlt⟩
    · refine ⟨c :: before, d, after, rfl, ?_, ?_⟩
      · rw [utf8_length_cons]
        omega
      · rw [utf8_length_cons]
        omega

/-- At an offset there is a continuation byte exactly when a character straddles it. -/
theorem continuation_iff_straddles (k : Nat) (text : List Char) :
    (∃ b, (utf8 text)[k]? = some b ∧ Continuation b) ↔ Straddles k text := by
  induction text generalizing k with
  | nil => simp [Straddles]
  | cons c text ih =>
    obtain ⟨first, later, hc, hfirst, hlater⟩ := utf8EncodeChar_split c
    have hsize : c.utf8Size = later.length + 1 := by rw [← String.length_utf8EncodeChar, hc, List.length_cons]
    rw [straddles_cons, utf8_cons, hc, hsize]
    by_cases hlt : k < later.length + 1
    · rw [List.getElem?_append_left hlt]
      cases k with
      | zero => simp [hfirst]
      | succ k =>
        have hk : k < later.length := Nat.lt_of_succ_lt_succ hlt
        have hcont := hlater later[k] (List.getElem_mem hk)
        simp [hcont, hk]
    · have hle : later.length + 1 ≤ k := Nat.not_lt.mp hlt
      rw [List.getElem?_append_right hle, List.length_cons, ih]
      simp [hlt, hle]

/-- A text is cut in two whole parts at every other offset. -/
theorem straddles_or_split {k : Nat} {text : List Char} (h : k ≤ (utf8 text).length) :
    Straddles k text ∨ ∃ front back, text = front ++ back ∧ (utf8 front).length = k := by
  induction text generalizing k with
  | nil => exact .inr ⟨[], [], rfl, (Nat.le_zero.mp h).symm⟩
  | cons c text ih =>
    rw [utf8_length_cons] at h
    rw [straddles_cons]
    by_cases hzero : k = 0
    · exact .inr ⟨[], c :: text, rfl, hzero.symm⟩
    · by_cases hlt : k < c.utf8Size
      · exact .inl (.inl ⟨Nat.pos_of_ne_zero hzero, hlt⟩)
      · rcases ih (k := k - c.utf8Size) (by omega) with hin | ⟨front, back, rfl, hlen⟩
        · exact .inl (.inr ⟨Nat.not_lt.mp hlt, hin⟩)
        · refine .inr ⟨c :: front, back, rfl, ?_⟩
          rw [utf8_length_cons]
          omega

theorem not_straddles_append (front back : List Char) : ¬ Straddles (utf8 front).length (front ++ back) := by
  induction front with
  | nil =>
    rintro ⟨_, _, _, -, hlt, -⟩
    exact absurd hlt (Nat.not_lt_zero _)
  | cons c front ih =>
    rw [List.cons_append, straddles_cons, utf8_length_cons]
    rintro (⟨-, hlt⟩ | ⟨-, hin⟩)
    · omega
    · rw [Nat.add_sub_cancel_left] at hin
      exact ih hin

theorem eq_nil_of_utf8_length {front more : List Char} (h : (utf8 front).length = (utf8 (front ++ more)).length) :
    more = [] := by
  rw [utf8_append, List.length_append] at h
  have hmore : (utf8 more).length = 0 := by omega
  exact eq_nil_of_utf8 (List.eq_nil_of_length_eq_zero hmore)

/-- There is one way to cut a text at an offset. -/
theorem cut_unique {front back front' back' : List Char} (h : front ++ back = front' ++ back')
    (hlen : (utf8 front).length = (utf8 front').length) : front = front' := by
  rcases List.append_eq_append_iff.mp h with ⟨more, rfl, -⟩ | ⟨more, rfl, -⟩
  · rw [eq_nil_of_utf8_length hlen, List.append_nil]
  · rw [eq_nil_of_utf8_length hlen.symm, List.append_nil]

/-! ## ASCII -/

/-- What `decide` shows of the 128 characters holds of every one below `0x80`. -/
theorem ascii_forall {P : Char → Prop} (h : ∀ n : Fin 0x80, P (Char.ofNat n.val)) {c : Char} (hc : c.toNat < 0x80) :
    P c := by
  have hn := h ⟨c.toNat, hc⟩
  rwa [Char.ofNat_toNat] at hn

/-- Bytes below `0x80` as the characters they are. -/
def asciiText (bytes : Bytes) : List Char := bytes.map fun b => Char.ofNat b.toNat

theorem toNat_ofNat_of_ascii {n : Nat} (h : n < 0x80) : (Char.ofNat n).toNat = n := by
  have hvalid : n.isValidChar := .inl (by omega)
  rw [Char.toNat_ofNat, if_pos hvalid]

theorem utf8_length_of_ascii {text : List Char} (h : ∀ c ∈ text, c.toNat < 0x80) : (utf8 text).length = text.length := by
  induction text with
  | nil => rfl
  | cons c text ih =>
    have hone : c.utf8Size = 1 := by
      rw [← String.length_utf8EncodeChar, utf8EncodeChar_ascii (h c List.mem_cons_self), List.length_singleton]
    rw [utf8_length_cons, hone, ih fun c hc => h c (List.mem_cons_of_mem _ hc), List.length_cons, Nat.add_comm]

theorem utf8_asciiText {bytes : Bytes} (h : ∀ b ∈ bytes, b < 0x80) : utf8 (asciiText bytes) = bytes := by
  induction bytes with
  | nil => rfl
  | cons b bytes ih =>
    have hb : b.toNat < 0x80 := UInt8.lt_iff_toNat_lt.mp (h b List.mem_cons_self)
    have hchar := toNat_ofNat_of_ascii hb
    show String.utf8EncodeChar (Char.ofNat b.toNat) ++ utf8 (asciiText bytes) = b :: bytes
    rw [utf8EncodeChar_ascii (by omega), hchar, UInt8.ofNat_toNat, ih fun b hb => h b (List.mem_cons_of_mem _ hb)]
    rfl

end Scytale.Lib
