/-
  Scytale.Lib.Contents — a table with exactly the entries of a list.

  An index that is kept by hand is right when its table has exactly the entries that can be
  listed from what it indexes.
  - `Exactly.insertAll`: entries under new keys go behind the list.
  - `Exactly.eraseAll`: and come off it again.
  - `sumBy_eq_of_shown`: tables of different values that show the same amount under each key
    have the same total.
-/
import Scytale.Lib.Undo

set_option linter.unusedSectionVars false

namespace Scytale.Lib.Table

variable {K V : Type} [Ord K] [Std.TransOrd K] [Std.LawfulEqOrd K] [DecidableEq K]

/-- The entries of the table are those of the list. -/
def Exactly (t : Table K V) (l : List (K × V)) : Prop := ∀ (k : K) (v : V), t[k]? = some v ↔ (k, v) ∈ l

theorem exactly_empty : Exactly (∅ : Table K V) [] := by
  intro k v
  simp

theorem Exactly.get_none {t : Table K V} {l : List (K × V)} (h : Exactly t l) {k : K} (hk : k ∉ l.map (·.1)) :
    t[k]? = none := by
  cases hg : t[k]? with
  | none => rfl
  | some v => exact absurd (List.mem_map.mpr ⟨_, (h k v).mp hg, rfl⟩) hk

theorem get_insertAll_mem {t : Table K V} {new : List (K × V)} (hnd : (new.map (·.1)).Nodup) {k : K} {v : V}
    (hm : (k, v) ∈ new) : (insertAll t new)[k]? = some v := by
  rcases get_insertAll new t k with ⟨w, hw, hg⟩ | ⟨hn, -⟩
  · have : (k, w) = (k, v) := List.inj_on_of_nodup_map hnd hw hm rfl
    rw [hg, (Prod.mk.inj this).2]
  · exact absurd (List.mem_map.mpr ⟨_, hm, rfl⟩) hn

theorem Exactly.insertAll {t : Table K V} {l new : List (K × V)} (h : Exactly t l) (hnd : (new.map (·.1)).Nodup)
    (hfresh : ∀ k ∈ new.map (·.1), k ∉ l.map (·.1)) : Exactly (Table.insertAll t new) (l ++ new) := by
  intro k v
  rw [List.mem_append]
  constructor
  · intro hg
    rcases get_insertAll new t k with ⟨w, hw, hg'⟩ | ⟨-, hg'⟩
    · rw [hg'] at hg
      cases hg
      exact .inr hw
    · rw [hg'] at hg
      exact .inl ((h k v).mp hg)
  · rintro (hm | hm)
    · rcases get_insertAll new t k with ⟨w, hw, -⟩ | ⟨-, hg'⟩
      · exact absurd (List.mem_map.mpr ⟨_, hm, rfl⟩) (hfresh k (List.mem_map.mpr ⟨_, hw, rfl⟩))
      · rw [hg']
        exact (h k v).mpr hm
    · exact get_insertAll_mem hnd hm

/-- Removing keys that are those of the last entries and of none before them. -/
theorem Exactly.eraseAll {t : Table K V} {l last : List (K × V)} {ks : List K} (h : Exactly t (l ++ last))
    (hall : ∀ k ∈ last.map (·.1), k ∈ ks) (hother : ∀ k ∈ ks, k ∉ l.map (·.1)) : Exactly (Table.eraseAll t ks) l := by
  intro k v
  rw [get_eraseAll]
  split
  · rename_i hk
    simp only [false_iff, reduceCtorEq]
    exact fun hm => hother k hk (List.mem_map.mpr ⟨_, hm, rfl⟩)
  · rename_i hk
    rw [h k v, List.mem_append]
    exact or_iff_left fun hm => hk (hall k (List.mem_map.mpr ⟨_, hm, rfl⟩))

/-! ## The same amounts -/

/-- The amounts other than zero, each with its key. -/
def amounts (f : V → Nat) (t : Table K V) : List (K × Nat) :=
  (t.toList.map fun p => (p.1, f p.2)).filter fun p => p.2 ≠ 0

theorem mem_amounts {f : V → Nat} {t : Table K V} {k : K} {n : Nat} :
    (k, n) ∈ amounts f t ↔ n ≠ 0 ∧ (t[k]?.map f).getD 0 = n := by
  simp only [amounts, List.mem_filter, List.mem_map, decide_eq_true_eq, Prod.exists, Prod.mk.injEq]
  constructor
  · rintro ⟨⟨a, v, hm, rfl, rfl⟩, hn⟩
    rw [mem_toList.mp hm]
    exact ⟨hn, rfl⟩
  · rintro ⟨hn, hv⟩
    cases hg : t[k]? with
    | none => rw [hg] at hv; exact absurd hv.symm hn
    | some v =>
      rw [hg] at hv
      exact ⟨⟨k, v, mem_toList.mpr hg, rfl, hv⟩, hn⟩

theorem nodup_amounts (f : V → Nat) (t : Table K V) : (amounts f t).Nodup := by
  have hkeys : ((t.toList.map fun p => (p.1, f p.2)).map (·.1)).Nodup := by
    rw [List.map_map]
    exact nodup_keys t
  exact hkeys.of_map.filter _

theorem sumBy_amounts (f : V → Nat) (t : Table K V) : sumBy f t = ((amounts f t).map (·.2)).sum := by
  unfold sumBy amounts
  induction t.toList with
  | nil => rfl
  | cons p l ih =>
    by_cases h : f p.2 = 0
    · simp [h, ih]
    · simp [h, ih]

theorem sumBy_eq_of_shown {W : Type} {f : V → Nat} {g : W → Nat} {t : Table K V} {u : Table K W}
    (h : ∀ k : K, (t[k]?.map f).getD 0 = (u[k]?.map g).getD 0) : sumBy f t = sumBy g u := by
  have hperm : (amounts f t).Perm (amounts g u) :=
    (List.perm_ext_iff_of_nodup (nodup_amounts f t) (nodup_amounts g u)).mpr fun p => by
      rw [mem_amounts, mem_amounts, h]
  rw [sumBy_amounts, sumBy_amounts, (hperm.map _).sum_eq]

theorem sumBy_le {f g : V → Nat} (h : ∀ v, f v ≤ g v) (t : Table K V) : sumBy f t ≤ sumBy g t := by
  unfold sumBy
  induction t.toList with
  | nil => exact Nat.le_refl _
  | cons p l ih =>
    have := h p.2
    simp only [List.map_cons, List.sum_cons]
    omega

end Scytale.Lib.Table
