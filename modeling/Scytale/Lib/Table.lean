/-
  Scytale.Lib.Table — finite maps with extensional equality, over any ordered key type.

  A `Table K V` is the standard library's ordered map compared by contents, so two
  tables that answer every lookup alike are equal whatever order they were filled in.
  Its lookups are stated with `=` on keys (the library states them with `compare`).
  - `get_insert` / `get_erase`: what one write changes.
  - `sumBy_insert` / `sumBy_erase`: a total over the values moves by the value written
    or removed.
  - `get_eraseAll` / `sumBy_eraseAll`: the same for a list of removals.
  - `Within.size_le` / `Within.sumBy_le`: a table within another holds no more.
-/
import Mathlib

set_option linter.unusedSectionVars false

namespace Scytale.Lib

open Std

/-- A finite map, compared by contents. -/
abbrev Table (K V : Type) [Ord K] := ExtTreeMap K V compare

namespace Table

variable {K V : Type} [Ord K] [TransOrd K] [LawfulEqOrd K]

theorem compare_eq_eq (a b : K) : compare a b = .eq ↔ a = b := Std.compare_eq_iff_eq

theorem get_insert [DecidableEq K] (m : Table K V) (k a : K) (v : V) :
    (m.insert k v)[a]? = if k = a then some v else m[a]? := by
  rw [ExtTreeMap.getElem?_insert]
  simp only [compare_eq_eq]

@[simp] theorem get_insert_self (m : Table K V) (k : K) (v : V) : (m.insert k v)[k]? = some v := by
  rw [ExtTreeMap.getElem?_insert]
  simp

theorem get_insert_ne (m : Table K V) {k a : K} (v : V) (h : k ≠ a) : (m.insert k v)[a]? = m[a]? := by
  rw [ExtTreeMap.getElem?_insert, if_neg (fun e => h ((compare_eq_eq k a).mp e))]

theorem get_erase [DecidableEq K] (m : Table K V) (k a : K) :
    (m.erase k)[a]? = if k = a then none else m[a]? := by
  rw [ExtTreeMap.getElem?_erase]
  simp only [compare_eq_eq]

@[simp] theorem get_empty (a : K) : (∅ : Table K V)[a]? = none := ExtTreeMap.getElem?_empty

theorem ext {m₁ m₂ : Table K V} (h : ∀ k : K, m₁[k]? = m₂[k]?) : m₁ = m₂ := ExtTreeMap.ext_getElem? h

theorem contains_eq (m : Table K V) (k : K) : m.contains k = m[k]?.isSome :=
  ExtTreeMap.contains_eq_isSome_getElem?

theorem contains_iff (m : Table K V) (k : K) : m.contains k = true ↔ ∃ v, m[k]? = some v := by
  rw [contains_eq, Option.isSome_iff_exists]

theorem not_contains_iff (m : Table K V) (k : K) : m.contains k = false ↔ m[k]? = none := by
  rw [contains_eq]
  cases m[k]? <;> simp

theorem ne_empty_iff {m : Table K V} : m ≠ ∅ ↔ ∃ (k : K) (v : V), m[k]? = some v := by
  constructor
  · intro h
    by_contra hnone
    refine h (ext fun k => ?_)
    rw [get_empty]
    exact Option.eq_none_iff_forall_not_mem.mpr fun v hv => hnone ⟨k, v, hv⟩
  · rintro ⟨k, v, hv⟩ rfl
    rw [get_empty] at hv
    cases hv

/-! ## Totals over the values -/

theorem nodup_toList (m : Table K V) : m.toList.Nodup := by
  refine List.Pairwise.imp ?_ (ExtTreeMap.distinct_keys_toList (t := m))
  rintro a b h rfl
  exact h ((compare_eq_eq _ _).mpr rfl)

theorem nodup_keys (m : Table K V) : (m.toList.map (·.1)).Nodup := by
  refine List.Pairwise.map _ (fun a b h e => ?_) (ExtTreeMap.distinct_keys_toList (t := m))
  exact h ((compare_eq_eq _ _).mpr e)

theorem mem_toList {m : Table K V} {k : K} {v : V} : (k, v) ∈ m.toList ↔ m[k]? = some v :=
  ExtTreeMap.mem_toList_iff_getElem?_eq_some

/-- Distinct keys of a table are no more than it holds. -/
theorem length_le_size {m : Table K V} {ks : List K} (hnd : ks.Nodup) (hks : ∀ k ∈ ks, ∃ v, m[k]? = some v) :
    ks.length ≤ m.size := by
  have hsub : ks ⊆ m.toList.map (·.1) := fun k hk => by
    obtain ⟨v, hv⟩ := hks k hk
    exact List.mem_map.mpr ⟨(k, v), mem_toList.mpr hv, rfl⟩
  have hle := (List.subperm_of_subset hnd hsub).length_le
  rwa [List.length_map, ExtTreeMap.length_toList] at hle

/-- A table whose keys are all in a list holds no more than the list. -/
theorem size_le_length {m : Table K V} {ks : List K} (h : ∀ (k : K) (v : V), m[k]? = some v → k ∈ ks) :
    m.size ≤ ks.length := by
  have hsub : m.toList.map (·.1) ⊆ ks := fun k hk => by
    obtain ⟨p, hp, rfl⟩ := List.mem_map.mp hk
    exact h p.1 p.2 (mem_toList.mp hp)
  have hle := (List.subperm_of_subset (nodup_keys m) hsub).length_le
  rwa [List.length_map, ExtTreeMap.length_toList] at hle

theorem toList_insert_perm [DecidableEq K] {m : Table K V} {k : K} (v : V) (h : m[k]? = none) :
    (m.insert k v).toList.Perm ((k, v) :: m.toList) := by
  have hk : (k, v) ∉ m.toList := by rw [mem_toList, h]; simp
  refine (List.perm_ext_iff_of_nodup (nodup_toList _) (List.nodup_cons.mpr ⟨hk, nodup_toList _⟩)).mpr ?_
  rintro ⟨a, w⟩
  rw [List.mem_cons, mem_toList, mem_toList, get_insert]
  by_cases e : k = a
  · subst e
    simp [h, eq_comm]
  · have : ¬ a = k := fun h' => e h'.symm
    simp [e, this]

theorem toList_erase_perm [DecidableEq K] {m : Table K V} {k : K} {v : V} (h : m[k]? = some v) :
    m.toList.Perm ((k, v) :: (m.erase k).toList) := by
  have hg : (m.erase k)[k]? = none := by rw [get_erase, if_pos rfl]
  have hm : (m.erase k).insert k v = m := by
    refine ext fun a => ?_
    rw [get_insert, get_erase]
    by_cases e : k = a
    · subst e; simp [h]
    · simp [e]
  have := toList_insert_perm v hg
  rwa [hm] at this

/-- The total of `f` over the values of the table. -/
def sumBy (f : V → Nat) (m : Table K V) : Nat := (m.toList.map fun p => f p.2).sum

theorem sumBy_empty (f : V → Nat) : sumBy f (∅ : Table K V) = 0 := by
  have : (∅ : Table K V).toList = [] := List.eq_nil_iff_forall_not_mem.mpr fun p hp => by
    have := mem_toList.mp hp
    simp at this
  simp [sumBy, this]

theorem sumBy_insert [DecidableEq K] (f : V → Nat) {m : Table K V} {k : K} (v : V) (h : m[k]? = none) :
    sumBy f (m.insert k v) = f v + sumBy f m := by
  unfold sumBy
  rw [((toList_insert_perm v h).map _).sum_eq]
  simp

theorem sumBy_erase [DecidableEq K] (f : V → Nat) {m : Table K V} {k : K} {v : V} (h : m[k]? = some v) :
    sumBy f (m.erase k) + f v = sumBy f m := by
  unfold sumBy
  rw [((toList_erase_perm h).map _).sum_eq]
  simp [Nat.add_comm]

/-- Distinct entries of a table have no more than its total. -/
theorem sum_le_sumBy (f : V → Nat) {m : Table K V} {ps : List (K × V)} (hnd : ps.Nodup) (hps : ∀ p ∈ ps, m[p.1]? = some p.2) :
    (ps.map fun p => f p.2).sum ≤ sumBy f m := by
  obtain ⟨l, hperm, hsub⟩ := List.subperm_of_subset hnd fun p hp => mem_toList.mpr (hps p hp)
  unfold sumBy
  rw [← (hperm.map _).sum_eq]
  exact (hsub.map _).sum_le_sum fun _ _ => Nat.zero_le _

/-- The values that count in the first table are in the second, and count there for no less. -/
theorem sumBy_le_of_mem {f g : V → Nat} {a b : Table K V}
    (h : ∀ (k : K) (v : V), a[k]? = some v → f v ≠ 0 → b[k]? = some v ∧ f v ≤ g v) : sumBy f a ≤ sumBy g b := by
  have hdrop : ∀ l : List (K × V), (l.map fun p => f p.2).sum = ((l.filter fun p => f p.2 ≠ 0).map fun p => f p.2).sum := by
    intro l
    induction l with
    | nil => rfl
    | cons p l ih =>
      by_cases hp : f p.2 = 0
      · simpa [hp] using ih
      · simpa [hp] using ih
  have hmem : ∀ p ∈ a.toList.filter fun p => f p.2 ≠ 0, b[p.1]? = some p.2 ∧ f p.2 ≤ g p.2 := by
    intro p hp
    obtain ⟨hp, hne⟩ := List.mem_filter.mp hp
    exact h p.1 p.2 (mem_toList.mp hp) (of_decide_eq_true hne)
  calc sumBy f a = _ := hdrop a.toList
    _ ≤ ((a.toList.filter fun p => f p.2 ≠ 0).map fun p => g p.2).sum := List.sum_le_sum fun p hp => (hmem p hp).2
    _ ≤ sumBy g b := sum_le_sumBy g ((nodup_toList a).filter _) fun p hp => (hmem p hp).1

theorem sumBy_mod_le (f : V → Nat) (n : Nat) (m : Table K V) : sumBy (fun v => f v % n) m ≤ sumBy f m :=
  List.sum_le_sum fun p _ => Nat.mod_le (f p.2) n

/-- Remainders add up to the whole exactly when nothing was cut off. -/
theorem sumBy_mod_eq_iff (f : V → Nat) {n : Nat} (hn : 0 < n) (m : Table K V) :
    sumBy (fun v => f v % n) m = sumBy f m ↔ ∀ (k : K) (v : V), m[k]? = some v → f v < n := by
  have hlist : ∀ l : List (K × V), (l.map fun p => f p.2 % n).sum = (l.map fun p => f p.2).sum ↔ ∀ p ∈ l, f p.2 < n := by
    intro l
    induction l with
    | nil => simp
    | cons p l ih =>
      have hfirst := Nat.mod_le (f p.2) n
      have hrest : (l.map fun p => f p.2 % n).sum ≤ (l.map fun p => f p.2).sum :=
        List.sum_le_sum fun p _ => Nat.mod_le (f p.2) n
      rw [List.map_cons, List.map_cons, List.sum_cons, List.sum_cons, List.forall_mem_cons, ← ih]
      constructor
      · intro h
        have hp : f p.2 % n = f p.2 := by omega
        exact ⟨hp ▸ Nat.mod_lt _ hn, by omega⟩
      · rintro ⟨hp, hl⟩
        rw [Nat.mod_eq_of_lt hp, hl]
  refine (hlist m.toList).trans ⟨fun h k v hv => h (k, v) (mem_toList.mpr hv), fun h p hp => h p.1 p.2 (mem_toList.mp hp)⟩

/-! ## Removing a list of keys -/

def eraseAll (m : Table K V) (ks : List K) : Table K V := ks.foldl (fun m k => m.erase k) m

@[simp] theorem eraseAll_nil (m : Table K V) : eraseAll m [] = m := rfl

@[simp] theorem eraseAll_cons (m : Table K V) (k : K) (ks : List K) :
    eraseAll m (k :: ks) = eraseAll (m.erase k) ks := rfl

theorem get_eraseAll [DecidableEq K] (ks : List K) : ∀ (m : Table K V) (a : K),
    (eraseAll m ks)[a]? = if a ∈ ks then none else m[a]? := by
  induction ks with
  | nil => intro m a; simp
  | cons k ks ih =>
    intro m a
    rw [eraseAll_cons, ih, get_erase]
    by_cases e : k = a
    · subst e; simp
    · have : ¬ a = k := fun h => e h.symm
      simp [e, this]

/-- Removing distinct keys that are all present takes exactly their values out of the
    total. -/
theorem sumBy_eraseAll [DecidableEq K] (f : V → Nat) (ks : List K) : ∀ (m : Table K V) (vs : List V), ks.Nodup →
    ks.map (fun k => m[k]?) = vs.map some → sumBy f (eraseAll m ks) + (vs.map f).sum = sumBy f m := by
  induction ks with
  | nil =>
    intro m vs _ h
    have : vs = [] := by simpa using h.symm
    subst this
    simp
  | cons k ks ih =>
    intro m vs hn h
    obtain ⟨hk, hn⟩ := List.nodup_cons.mp hn
    rcases vs with _ | ⟨v, vs⟩
    · simp at h
    · simp only [List.map_cons, List.cons.injEq] at h
      have hrest : ks.map (fun a => (m.erase k)[a]?) = vs.map some := by
        rw [← h.2]
        refine List.map_congr_left fun a ha => ?_
        have hne : k ≠ a := fun e => hk (e ▸ ha)
        rw [get_erase, if_neg hne]
      have := ih (m.erase k) vs hn hrest
      have := sumBy_erase f h.1
      simp only [eraseAll_cons, List.map_cons, List.sum_cons]
      omega

/-! ## One table in another -/

/-- Every entry of the first table is in the second. -/
def Within (a b : Table K V) : Prop := ∀ (k : K) (v : V), a[k]? = some v → b[k]? = some v

namespace Within

variable {a b : Table K V}

theorem subperm (h : Within a b) : a.toList.Subperm b.toList :=
  List.subperm_of_subset (nodup_toList a) fun ⟨k, v⟩ hp => mem_toList.mpr (h k v (mem_toList.mp hp))

theorem size_le (h : Within a b) : a.size ≤ b.size := by
  have := h.subperm.length_le
  rwa [ExtTreeMap.length_toList, ExtTreeMap.length_toList] at this

theorem size_lt (h : Within a b) {k : K} {v : V} (hb : b[k]? = some v) (ha : a[k]? = none) : a.size < b.size := by
  have hk : k ∉ a.toList.map (·.1) := fun hm => by
    obtain ⟨⟨k', w⟩, hp, rfl⟩ := List.mem_map.mp hm
    have hw : a[k']? = some w := mem_toList.mp hp
    rw [ha] at hw
    cases hw
  have hle := length_le_size (List.nodup_cons.mpr ⟨hk, nodup_keys a⟩) (m := b) fun k' hk' => by
    rcases List.mem_cons.mp hk' with rfl | hm
    · exact ⟨v, hb⟩
    · obtain ⟨⟨k', w⟩, hp, rfl⟩ := List.mem_map.mp hm
      exact ⟨w, h k' w (mem_toList.mp hp)⟩
  rwa [List.length_cons, List.length_map, ExtTreeMap.length_toList] at hle

theorem sumBy_le (f : V → Nat) (h : Within a b) : sumBy f a ≤ sumBy f b :=
  sum_le_sumBy f (nodup_toList a) fun p hp => h p.1 p.2 (mem_toList.mp hp)

end Within

end Table

end Scytale.Lib
