/-
  Scytale.Lib.Growth — the nodes above and below a node, and what a new node does to them.

  An edge leads up. A node that comes with edges to some of the others, and none to it, puts
  itself below all that it can reach, and nothing else moves.
  - `Bounded`: no node has more than so many above it, or below it.
  - `Grown.bounded_iff`: with the new node the bounds hold exactly when it reaches no more than
    that, and each node it reaches had fewer below it.
-/
import Mathlib

namespace Scytale.Lib.Growth

open Relation

variable {α : Type} {r r' : α → α → Prop} {new a b : α} {P : α → Prop} {up down : ℕ}

/-- All that is reached from `a`. -/
def above (r : α → α → Prop) (a : α) : Set α := {b | TransGen r a b}

/-- All that `b` is reached from. -/
def below (r : α → α → Prop) (b : α) : Set α := {a | TransGen r a b}

/-- The nodes of `P` and all that is above them. -/
def reach (r : α → α → Prop) (P : α → Prop) : Set α := {b | ∃ p, P p ∧ ReflTransGen r p b}

structure Bounded (r : α → α → Prop) (up down : ℕ) : Prop where
  above : ∀ a, (above r a).encard ≤ up
  below : ∀ b, (below r b).encard ≤ down

/-- What is all in a list is no more than the list. -/
theorem encard_le_length {s : Set α} {l : List α} (h : ∀ a ∈ s, a ∈ l) : s.encard ≤ l.length := by
  classical
  have hsub : s ⊆ (l.toFinset : Set α) := fun a ha => by simpa using h a ha
  calc s.encard ≤ (l.toFinset : Set α).encard := Set.encard_le_encard hsub
    _ = (l.toFinset.card : ℕ∞) := Set.encard_coe_eq_coe_finsetCard _
    _ ≤ l.length := Nat.cast_le.mpr l.toFinset_card_le

/-- What contains all of a list without repetitions is no less. -/
theorem length_le_encard {s : Set α} {l : List α} (hl : l.Nodup) (h : ∀ a ∈ l, a ∈ s) : (l.length : ℕ∞) ≤ s.encard := by
  classical
  have hsub : (l.toFinset : Set α) ⊆ s := fun a ha => h a (by simpa using ha)
  calc (l.length : ℕ∞) = (l.toFinset.card : ℕ∞) := by rw [List.toFinset_card_of_nodup hl]
    _ = (l.toFinset : Set α).encard := (Set.encard_coe_eq_coe_finsetCard _).symm
    _ ≤ s.encard := Set.encard_le_encard hsub

/-- Fewer edges keep the bounds. -/
theorem Bounded.mono (h : Bounded r up down) (hle : ∀ a b, r' a b → r a b) : Bounded r' up down where
  above a := (Set.encard_le_encard fun _ hb => TransGen.mono hle _ _ hb).trans (h.above a)
  below b := (Set.encard_le_encard fun _ ha => TransGen.mono hle _ _ ha).trans (h.below b)

/-- So does no edge at all. -/
theorem bounded_of_none (h : ∀ a b, ¬r a b) : Bounded r up down := by
  have hnone : ∀ a b, ¬TransGen r a b := by
    intro a b hab
    obtain ⟨c, hc, -⟩ := TransGen.head'_iff.mp hab
    exact h a c hc
  constructor
  · intro a
    rw [show above r a = ∅ from Set.eq_empty_of_forall_notMem (hnone a), Set.encard_empty]
    exact zero_le
  · intro b
    rw [show below r b = ∅ from Set.eq_empty_of_forall_notMem fun a => hnone a b, Set.encard_empty]
    exact zero_le

/-- `r'` is `r` with a new node and its edges to the nodes of `P`. -/
structure Grown (r r' : α → α → Prop) (new : α) (P : α → Prop) : Prop where
  edge : ∀ a b, r' a b ↔ r a b ∨ (a = new ∧ P b)
  noneTo : ∀ a, ¬r a new
  noneFrom : ∀ b, ¬r new b
  notSelf : ¬P new

namespace Grown

theorem ne_of_transGen (h : Grown r r' new P) (hab : TransGen r a b) : a ≠ new ∧ b ≠ new := by
  constructor
  · rintro rfl
    obtain ⟨c, hc, -⟩ := TransGen.head'_iff.mp hab
    exact h.noneFrom c hc
  · rintro rfl
    obtain ⟨c, -, hc⟩ := TransGen.tail'_iff.mp hab
    exact h.noneTo c hc

theorem ne_of_reach (h : Grown r r' new P) (hb : b ∈ reach r P) : b ≠ new := by
  obtain ⟨p, hp, hpath⟩ := hb
  rcases reflTransGen_iff_eq_or_transGen.mp hpath with rfl | hpath
  · rintro rfl
    exact h.notSelf hp
  · exact (h.ne_of_transGen hpath).2

theorem transGen_iff (h : Grown r r' new P) : TransGen r' a b ↔ TransGen r a b ∨ (a = new ∧ b ∈ reach r P) := by
  constructor
  · intro hab
    induction hab with
    | single hab =>
      rcases (h.edge _ _).mp hab with hab | ⟨rfl, hp⟩
      · exact .inl (.single hab)
      · exact .inr ⟨rfl, _, hp, .refl⟩
    | tail _ hbc ih =>
      -- the last edge does not start from the new node
      rcases ih with hab | ⟨rfl, hb⟩
      · have hbc := ((h.edge _ _).mp hbc).resolve_right fun hn => (h.ne_of_transGen hab).2 hn.1
        exact .inl (.tail hab hbc)
      · have hbc := ((h.edge _ _).mp hbc).resolve_right fun hn => h.ne_of_reach hb hn.1
        obtain ⟨p, hp, hpath⟩ := hb
        exact .inr ⟨rfl, p, hp, hpath.tail hbc⟩
  · have hold : ∀ a b, r a b → r' a b := fun a b hab => (h.edge a b).mpr (.inl hab)
    rintro (hab | ⟨rfl, p, hp, hpath⟩)
    · exact TransGen.mono hold _ _ hab
    · exact .head' ((h.edge _ p).mpr (.inr ⟨rfl, hp⟩)) (ReflTransGen.mono hold _ _ hpath)

theorem above_new (h : Grown r r' new P) : above r' new = reach r P := by
  ext b
  show TransGen r' new b ↔ _
  rw [h.transGen_iff]
  exact ⟨fun hb => hb.elim (fun hb => absurd rfl (h.ne_of_transGen hb).1) And.right, fun hb => .inr ⟨rfl, hb⟩⟩

theorem above_old (h : Grown r r' new P) (ha : a ≠ new) : above r' a = above r a := by
  ext b
  show TransGen r' a b ↔ TransGen r a b
  rw [h.transGen_iff]
  exact or_iff_left fun hb => ha hb.1

theorem below_reached (h : Grown r r' new P) (hb : b ∈ reach r P) : below r' b = insert new (below r b) := by
  ext a
  show TransGen r' a b ↔ a = new ∨ TransGen r a b
  rw [h.transGen_iff, or_comm]
  exact or_congr_left (and_iff_left hb)

theorem below_other (h : Grown r r' new P) (hb : b ∉ reach r P) : below r' b = below r b := by
  ext a
  show TransGen r' a b ↔ TransGen r a b
  rw [h.transGen_iff]
  exact or_iff_left fun ha => hb ha.2

theorem encard_below (h : Grown r r' new P) (hb : b ∈ reach r P) : (below r' b).encard = (below r b).encard + 1 := by
  rw [h.below_reached hb]
  exact Set.encard_insert_of_notMem fun hn => (h.ne_of_transGen hn).1 rfl

theorem bounded_iff (h : Grown r r' new P) (hr : Bounded r up down) : Bounded r' up down ↔
    (reach r P).encard ≤ up ∧ ∀ b ∈ reach r P, (below r b).encard < down := by
  have hsmall : ∀ b, (below r b).encard + 1 ≤ down ↔ (below r b).encard < down := fun b =>
    ENat.add_one_le_iff (ne_top_of_le_ne_top (ENat.natCast_ne_top down) (hr.below b))
  constructor
  · intro h'
    refine ⟨h.above_new ▸ h'.above new, fun b hb => (hsmall b).mp ?_⟩
    rw [← h.encard_below hb]
    exact h'.below b
  · rintro ⟨hup, hdown⟩
    constructor
    · intro a
      by_cases ha : a = new
      · rw [ha, h.above_new]
        exact hup
      · rw [h.above_old ha]
        exact hr.above a
    · intro b
      by_cases hb : b ∈ reach r P
      · rw [h.encard_below hb]
        exact (hsmall b).mpr (hdown b hb)
      · rw [h.below_other hb]
        exact hr.below b

end Grown

end Scytale.Lib.Growth
