/-
  Scytale.Lib.Codec — encodings whose end can be read off their beginning, over any type.

  `SelfDelimiting ok enc` says that of two strings that begin with encodings of acceptable
  values, equal strings begin with the same value and go on alike. The rules compose such
  encodings: fixed-size fields, length-prefixed byte vectors, and lists whose length is
  known.

  `Reads ok enc dec` says that a reader undoes an encoder and takes nothing else: it reads
  every acceptable value off the front of a string that begins with its encoding, and what
  it reads is an acceptable value whose encoding stood there.
  - `Reads.run_bind` / `Reads.of_bind`: reading field after field.
  - `readMany_reads`: reading a known number of values.
-/
import Scytale.Lib.Bytes

namespace Scytale.Lib

def SelfDelimiting {α : Type} (ok : α → Prop) (enc : α → Bytes) : Prop :=
  ∀ ⦃a b : α⦄ ⦃r s : Bytes⦄, ok a → ok b → enc a ++ r = enc b ++ s → a = b ∧ r = s

namespace SelfDelimiting

variable {α : Type} {ok : α → Prop} {enc : α → Bytes}

/-- An injective encoding of one size. -/
theorem fixed {k : Nat} (hlen : ∀ a, (enc a).length = k) (hinj : ∀ {a b}, enc a = enc b → a = b) :
    SelfDelimiting ok enc := by
  intro a b r s _ _ h
  obtain ⟨h1, h2⟩ := List.append_inj h (by rw [hlen, hlen])
  exact ⟨hinj h1, h2⟩

/-- Lists of one length, element after element. -/
theorem list (henc : SelfDelimiting ok enc) : ∀ {xs ys : List α} {r s : Bytes}, xs.length = ys.length →
    (∀ a ∈ xs, ok a) → (∀ a ∈ ys, ok a) → xs.flatMap enc ++ r = ys.flatMap enc ++ s → xs = ys ∧ r = s := by
  intro xs
  induction xs with
  | nil =>
    intro ys r s hl _ _ h
    have : ys = [] := List.eq_nil_of_length_eq_zero hl.symm
    subst this
    exact ⟨rfl, h⟩
  | cons x xs ih =>
    intro ys r s hl hx hy h
    rcases ys with _ | ⟨y, ys⟩
    · simp at hl
    · rw [List.flatMap_cons, List.flatMap_cons, List.append_assoc, List.append_assoc] at h
      obtain ⟨hxy, hrest⟩ := henc (hx x List.mem_cons_self) (hy y List.mem_cons_self) h
      obtain ⟨hxs, hrs⟩ := ih (by simpa using hl) (fun a ha => hx a (List.mem_cons_of_mem _ ha))
        (fun a ha => hy a (List.mem_cons_of_mem _ ha)) hrest
      exact ⟨by rw [hxy, hxs], hrs⟩

end SelfDelimiting

theorem u32le_delimits : SelfDelimiting (fun _ => True) u32le :=
  SelfDelimiting.fixed u32le_length u32le_inj

theorem u64le_delimits : SelfDelimiting (fun _ => True) u64le :=
  SelfDelimiting.fixed u64le_length u64le_inj

/-- A count below `2 ^ 32`, written in four bytes. -/
theorem count_delimits : SelfDelimiting (fun n : Nat => n < 2 ^ 32) fun n => u32le (UInt32.ofNat n) := by
  intro a b r s ha hb h
  obtain ⟨h1, h2⟩ := u32le_delimits trivial trivial h
  have := congrArg UInt32.toNat h1
  rw [UInt32.toNat_ofNat', UInt32.toNat_ofNat', Nat.mod_eq_of_lt ha, Nat.mod_eq_of_lt hb] at this
  exact ⟨this, h2⟩

/-- A byte vector behind its length. -/
theorem vec_delimits :
    SelfDelimiting (fun v : Bytes => v.length < 2 ^ 32) fun v => u32le (UInt32.ofNat v.length) ++ v := by
  intro a b r s ha hb h
  simp only [List.append_assoc] at h
  obtain ⟨h1, h2⟩ := count_delimits ha hb h
  obtain ⟨h3, h4⟩ := List.append_inj h2 h1
  exact ⟨h3, h4⟩

/-! ## Readers -/

/-- A reader takes a value off the front of a string, or fails. -/
abbrev Reader (ε : Type) := StateT Bytes (Except ε)

structure Reads {ε α : Type} (ok : α → Prop) (enc : α → Bytes) (dec : Reader ε α) : Prop where
  reads : ∀ a r, ok a → dec (enc a ++ r) = .ok (a, r)
  exact : ∀ {bs a r}, dec bs = .ok (a, r) → ok a ∧ bs = enc a ++ r

section
variable {ε α β : Type} {ok : α → Prop} {enc : α → Bytes} {dec : Reader ε α}

theorem Reads.run_bind (h : Reads ok enc dec) {a : α} (ha : ok a) (r : Bytes) (f : α → Reader ε β) :
    (dec >>= f) (enc a ++ r) = f a r := by
  show (dec (enc a ++ r) >>= fun p => f p.1 p.2) = _
  rw [h.reads a r ha]
  rfl

theorem Reads.of_bind (h : Reads ok enc dec) {f : α → Reader ε β} {bs r : Bytes} {b : β}
    (hb : (dec >>= f) bs = .ok (b, r)) : ∃ a r', ok a ∧ bs = enc a ++ r' ∧ f a r' = .ok (b, r) := by
  change (dec bs >>= fun p => f p.1 p.2) = .ok (b, r) at hb
  cases hd : dec bs with
  | error e => rw [hd] at hb; cases hb
  | ok p =>
    rw [hd] at hb
    obtain ⟨h1, h2⟩ := h.exact (a := p.1) (r := p.2) hd
    exact ⟨p.1, p.2, h1, h2, hb⟩

/-- `n` values, one after the other. -/
def readMany (dec : Reader ε α) : Nat → Reader ε (List α)
  | 0 => pure []
  | n + 1 => do
    let a ← dec
    let as ← readMany dec n
    return a :: as

theorem readMany_reads (h : Reads ok enc dec) : ∀ n : Nat,
    Reads (fun l : List α => l.length = n ∧ ∀ a ∈ l, ok a) (fun l => l.flatMap enc) (readMany dec n) := by
  intro n
  induction n with
  | zero =>
    refine ⟨fun l r hl => ?_, fun {bs l r} hb => ?_⟩
    · rw [List.eq_nil_of_length_eq_zero hl.1]
      rfl
    · cases hb
      exact ⟨⟨rfl, fun a ha => by cases ha⟩, rfl⟩
  | succ n ih =>
    refine ⟨fun l r hl => ?_, fun {bs l r} hb => ?_⟩
    · rcases l with _ | ⟨a, l⟩
      · cases hl.1
      · have hrest : l.length = n ∧ ∀ x ∈ l, ok x :=
          ⟨by simpa using hl.1, fun x hx => hl.2 x (List.mem_cons_of_mem _ hx)⟩
        rw [List.flatMap_cons, List.append_assoc, readMany, h.run_bind (hl.2 a List.mem_cons_self), ih.run_bind hrest]
        rfl
    · obtain ⟨a, r', ha, hbs, hrest⟩ := h.of_bind hb
      obtain ⟨as, r'', ⟨hlen, has⟩, hr', hpure⟩ := ih.of_bind hrest
      cases hpure
      refine ⟨⟨by simp [hlen], ?_⟩, by rw [hbs, hr', List.flatMap_cons, List.append_assoc]⟩
      intro x hx
      rcases List.mem_cons.mp hx with rfl | hx
      · exact ha
      · exact has x hx

/-- The first `k` bytes. -/
def readExact (eof : ε) (k : Nat) : Reader ε Bytes := fun bs =>
  if bs.length < k then .error eof else .ok (bs.take k, bs.drop k)

theorem readExact_reads (eof : ε) (k : Nat) : Reads (fun v : Bytes => v.length = k) id (readExact eof k) where
  reads v r hv := by
    have hlen : ¬ (id v ++ r).length < k := by simp [hv]
    rw [readExact, if_neg hlen, id, ← hv, List.take_left, List.drop_left]
  exact := by
    intro bs v r h
    unfold readExact at h
    split at h
    · cases h
    · cases h
      exact ⟨by rw [List.length_take]; omega, (List.take_append_drop k bs).symm⟩

/-- A reader composed with a conversion that the encoder undoes. -/
theorem Reads.map (h : Reads ok enc dec) {ok' : β → Prop} {enc' : β → Bytes} (f : α → β) (g : β → α)
    (henc : ∀ b, enc' b = enc (g b)) (hok : ∀ b, ok' b → ok (g b)) (hfg : ∀ b, ok' b → f (g b) = b)
    (hgf : ∀ a, ok a → ok' (f a) ∧ g (f a) = a) : Reads ok' enc' (do let a ← dec; return f a) where
  reads b r hb := by
    rw [henc, h.run_bind (hok b hb), hfg b hb]
    rfl
  exact := by
    intro bs b r hb
    obtain ⟨a, r', ha, hbs, hpure⟩ := h.of_bind hb
    cases hpure
    obtain ⟨h1, h2⟩ := hgf a ha
    exact ⟨h1, by rw [hbs, henc, h2]⟩

end

end Scytale.Lib
