/-
  Scytale.Lib.Links — a relation kept as a table of sets.

  Row `a` of the table is the set of all `b` that `a` is linked to. A loop over a set of rows
  takes one element out of each, or puts it in.
  - `linked_unlink` / `linked_link`: what the two loops do to the relation.
-/
import Scytale.Lib.Table

set_option linter.unusedSectionVars false

namespace Scytale.Lib.Table

variable {K : Type} [Ord K] [Std.TransOrd K] [Std.LawfulEqOrd K] [DecidableEq K]

/-- A set of keys. -/
abbrev KeySet (K : Type) [Ord K] := Table K Unit

theorem mem_keys_iff {s : KeySet K} {k : K} : k ∈ s.toList.map (·.1) ↔ s[k]? = some () := by
  constructor
  · intro h
    obtain ⟨⟨k', u⟩, hm, rfl⟩ := List.mem_map.mp h
    exact mem_toList.mp hm
  · intro h
    exact List.mem_map.mpr ⟨(k, ()), mem_toList.mpr h, rfl⟩

def Linked (t : Table K (KeySet K)) (a b : K) : Prop := ∃ s, t[a]? = some s ∧ s[b]? = some ()

theorem not_linked_empty (a b : K) : ¬Linked (∅ : Table K (KeySet K)) a b := by
  rintro ⟨s, hs, -⟩
  rw [get_empty] at hs
  cases hs

theorem linked_erase (t : Table K (KeySet K)) (k a b : K) : Linked (t.erase k) a b ↔ a ≠ k ∧ Linked t a b := by
  unfold Linked
  rw [get_erase]
  by_cases h : k = a
  · simp [h]
  · have : a ≠ k := fun e => h e.symm
    simp [h, this]

theorem linked_insert (t : Table K (KeySet K)) (k : K) (s : KeySet K) (a b : K) :
    Linked (t.insert k s) a b ↔ (a = k ∧ s[b]? = some ()) ∨ (a ≠ k ∧ Linked t a b) := by
  unfold Linked
  rw [get_insert]
  by_cases h : k = a
  · simp [h]
  · have : a ≠ k := fun e => h e.symm
    simp [h, this]

/-- Taking `c` out of one row. -/
def unlinkRow (c : K) (t : Table K (KeySet K)) (k : K) : Table K (KeySet K) :=
  match t[k]? with
  | none => t
  | some s => t.insert k (s.erase c)

theorem linked_unlinkRow (c : K) (t : Table K (KeySet K)) (k a b : K) :
    Linked (unlinkRow c t k) a b ↔ Linked t a b ∧ ¬(b = c ∧ a = k) := by
  unfold unlinkRow
  split
  · rename_i hk
    refine ⟨fun h => ⟨h, ?_⟩, fun h => h.1⟩
    rintro ⟨-, rfl⟩
    obtain ⟨s, hs, -⟩ := h
    rw [hk] at hs
    cases hs
  · rename_i s hk
    rw [linked_insert, get_erase]
    by_cases ha : a = k
    · subst ha
      have hl : Linked t a b ↔ s[b]? = some () := by simp [Linked, hk]
      rw [hl]
      by_cases hb : c = b
      · simp [hb]
      · have : b ≠ c := fun e => hb e.symm
        simp [hb, this]
    · simp [ha]

/-- Taking `c` out of the rows of a list. -/
theorem linked_unlink (c : K) (rows : List (K × Unit)) : ∀ (t : Table K (KeySet K)) (a b : K),
    Linked (rows.foldl (fun t p => unlinkRow c t p.1) t) a b ↔ Linked t a b ∧ ¬(b = c ∧ a ∈ rows.map (·.1)) := by
  induction rows with
  | nil => intro t a b; simp
  | cons r rows ih =>
    intro t a b
    rw [List.foldl_cons, ih, linked_unlinkRow, List.map_cons, List.mem_cons]
    tauto

/-- Putting `c` into the rows of a list. -/
theorem linked_link (c : K) (rows : List (K × Unit)) : ∀ (t : Table K (KeySet K)) (a b : K),
    Linked (rows.foldl (fun t p => t.insert p.1 ((t[p.1]?.getD ∅).insert c ())) t) a b ↔
      Linked t a b ∨ (b = c ∧ a ∈ rows.map (·.1)) := by
  induction rows with
  | nil => intro t a b; simp
  | cons r rows ih =>
    obtain ⟨k, u⟩ := r
    intro t a b
    rw [List.foldl_cons, ih, linked_insert, get_insert, List.map_cons, List.mem_cons]
    simp only
    by_cases ha : a = k
    · subst ha
      have hl : Linked t a b ↔ (t[a]?.getD ∅)[b]? = some () := by
        cases ht : t[a]? with
        | none => simp [Linked, ht]
        | some s => simp [Linked, ht]
      rw [hl]
      by_cases hb : c = b
      · simp [hb]
      · have : b ≠ c := fun e => hb e.symm
        simp [hb, this]
    · simp only [ha, false_and, ne_eq, not_false_eq_true, true_and, false_or]

end Scytale.Lib.Table
