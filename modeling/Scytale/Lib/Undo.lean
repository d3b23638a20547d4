/-
  Scytale.Lib.Undo — changing a table while recording how to take the changes back.

  A change is a sequence of `take`s (remove a key, record what it held) and `put`s (write a
  key, record it as created). `revert` removes what was created and then puts back what was
  taken, whatever the order in which the two were interleaved.
  - `Logged`: what a record knows of the table it started from; `take` and `put` keep it as
    long as nothing is overwritten.
  - `Logged.revert_eq_iff`: reverting gives the first table back exactly when what was taken
    last under each key is what was there at first.
  - `Covers`: the same for a table that holds more than the one whose changes it follows;
    `Covers.revert`: reverting gives back at least what the smaller table held.
-/
import Scytale.Lib.Table

set_option linter.unusedSectionVars false

namespace Scytale.Lib

/-- What to put back and what to remove. -/
structure Undo (K V : Type) where
  spent : List (K × V)
  created : List K
  deriving DecidableEq

namespace Table

variable {K V : Type} [Ord K] [Std.TransOrd K] [Std.LawfulEqOrd K]

/-- Writing a list of entries, later ones over earlier ones. -/
def insertAll (m : Table K V) (l : List (K × V)) : Table K V := l.foldl (fun m p => m.insert p.1 p.2) m

variable [DecidableEq K]

/-- The last value listed under a key. -/
def lastOf (l : List (K × V)) (k : K) : Option V := (l.reverse.find? fun p => p.1 = k).map (·.2)

@[simp] theorem lastOf_nil (k : K) : lastOf ([] : List (K × V)) k = none := rfl

theorem lastOf_append (l l' : List (K × V)) (k : K) : lastOf (l ++ l') k = (lastOf l' k).or (lastOf l k) := by
  unfold lastOf
  rw [List.reverse_append, List.find?_append]
  cases l'.reverse.find? fun p => p.1 = k <;> rfl

theorem lastOf_singleton (p : K × V) (k : K) : lastOf [p] k = if p.1 = k then some p.2 else none := by
  by_cases h : p.1 = k
  · simp [lastOf, h]
  · simp [lastOf, h]

theorem mem_of_lastOf {l : List (K × V)} {k : K} {v : V} (h : lastOf l k = some v) : (k, v) ∈ l := by
  obtain ⟨⟨k', w⟩, hfind, rfl⟩ := Option.map_eq_some_iff.mp h
  have hk : k' = k := by simpa using List.find?_some hfind
  rw [← hk]
  exact List.mem_reverse.mp (List.mem_of_find?_eq_some hfind)

theorem lastOf_eq_none_iff {l : List (K × V)} {k : K} : lastOf l k = none ↔ k ∉ l.map (·.1) := by
  rw [lastOf, Option.map_eq_none_iff, List.find?_eq_none]
  simp only [List.mem_reverse, decide_eq_true_eq, List.mem_map, not_exists, not_and]

/-- The last write to a key is the one that stays. -/
theorem get_insertAll_last (l : List (K × V)) (m : Table K V) (k : K) : (insertAll m l)[k]? = (lastOf l k).or m[k]? := by
  induction l using List.reverseRecOn with
  | nil => rfl
  | append_singleton l p ih =>
    have hsnoc : insertAll m (l ++ [p]) = (insertAll m l).insert p.1 p.2 := by simp [insertAll]
    rw [hsnoc, get_insert, ih, lastOf_append, lastOf_singleton]
    by_cases h : p.1 = k
    · simp [h]
    · simp [h]

/-- A key written is one of the entries, any other key is as before. -/
theorem get_insertAll (l : List (K × V)) (m : Table K V) (a : K) :
    (∃ v, (a, v) ∈ l ∧ (insertAll m l)[a]? = some v) ∨ (a ∉ l.map (·.1) ∧ (insertAll m l)[a]? = m[a]?) := by
  rw [get_insertAll_last]
  cases h : lastOf l a with
  | some v => exact Or.inl ⟨v, mem_of_lastOf h, rfl⟩
  | none => exact Or.inr ⟨lastOf_eq_none_iff.mp h, rfl⟩

/-- Entries that are written and erased again leave the table as it was exactly where they
    were new. -/
theorem eraseAll_insertAll_iff {t : Table K V} {l : List (K × V)} {ks : List K} (hks : l.map (·.1) = ks) :
    eraseAll (insertAll t l) ks = t ↔ ∀ k ∈ ks, t[k]? = none := by
  constructor
  · intro h k hk
    rw [← h, get_eraseAll, if_pos hk]
  · intro h
    refine ext fun k => ?_
    rw [get_eraseAll]
    split
    · rename_i hk
      exact (h k hk).symm
    · rename_i hk
      rw [get_insertAll_last, lastOf_eq_none_iff.mpr (hks ▸ hk), Option.none_or]

theorem erase_insert_iff {t : Table K V} {k : K} {v : V} : (t.insert k v).erase k = t ↔ t[k]? = none := by
  have h : eraseAll (insertAll t [(k, v)]) [k] = t ↔ ∀ a ∈ [k], t[a]? = none := eraseAll_insertAll_iff rfl
  rwa [List.forall_mem_singleton] at h

/-- Writing the entries of a table, in any order, gives the table. -/
theorem insertAll_perm {m : Table K V} {l : List (K × V)} (h : l.Perm m.toList) :
    insertAll ∅ l = m := by
  refine ext fun a => ?_
  rcases get_insertAll l ∅ a with ⟨v, hv, hg⟩ | ⟨hn, hg⟩
  · rw [hg, mem_toList.mp (h.mem_iff.mp hv)]
  · rw [hg, get_empty]
    cases hm : m[a]? with
    | none => rfl
    | some v => exact absurd (List.mem_map.mpr ⟨(a, v), h.mem_iff.mpr (mem_toList.mpr hm), rfl⟩) hn

end Table

namespace Undo

variable {K V : Type} [Ord K] [Std.TransOrd K] [Std.LawfulEqOrd K] [DecidableEq K]

def empty : Undo K V := ⟨[], []⟩

/-- Remove a key; what it held is recorded. -/
def take (s : Table K V × Undo K V) (k : K) : Table K V × Undo K V :=
  match s.1[k]? with
  | some v => (s.1.erase k, { s.2 with spent := s.2.spent ++ [(k, v)] })
  | none => (s.1.erase k, s.2)

/-- Write a key, and record it as created. -/
def put (s : Table K V × Undo K V) (k : K) (v : V) : Table K V × Undo K V :=
  (s.1.insert k v, { s.2 with created := s.2.created ++ [k] })

def takeAll (s : Table K V × Undo K V) (ks : List K) : Table K V × Undo K V := ks.foldl take s

def putAll (s : Table K V × Undo K V) (l : List (K × V)) : Table K V × Undo K V := l.foldl (fun s p => put s p.1 p.2) s

/-- Remove what was created, then put back what was taken. -/
def revert (u : Undo K V) (m : Table K V) : Table K V := (Table.eraseAll m u.created).insertAll u.spent

/-! ## What the changes do to the table -/

theorem take_fst (s : Table K V × Undo K V) (k : K) : (take s k).1 = s.1.erase k := by
  unfold take
  split <;> rfl

theorem take_created (s : Table K V × Undo K V) (k : K) : (take s k).2.created = s.2.created := by
  unfold take
  split <;> rfl

theorem takeAll_fst (ks : List K) : ∀ s : Table K V × Undo K V, (takeAll s ks).1 = Table.eraseAll s.1 ks := by
  induction ks with
  | nil => intro s; rfl
  | cons k ks ih =>
    intro s
    show (takeAll (take s k) ks).1 = _
    rw [ih, take_fst]
    rfl

theorem putAll_fst (l : List (K × V)) : ∀ s : Table K V × Undo K V, (putAll s l).1 = Table.insertAll s.1 l := by
  induction l with
  | nil => intro s; rfl
  | cons p l ih => intro s; exact ih (put s p.1 p.2)

theorem putAll_spent (l : List (K × V)) : ∀ s : Table K V × Undo K V, (putAll s l).2.spent = s.2.spent := by
  induction l with
  | nil => intro s; rfl
  | cons p l ih => intro s; exact ih (put s p.1 p.2)

/-! ## Taking them back -/

/-- What a key held when it was taken last. -/
def taken (u : Undo K V) (k : K) : Option V := Table.lastOf u.spent k

theorem get_revert (u : Undo K V) (m : Table K V) (k : K) :
    (u.revert m)[k]? = (u.taken k).or (if k ∈ u.created then none else m[k]?) := by
  rw [revert, Table.get_insertAll_last, Table.get_eraseAll, taken]

theorem taken_take (s : Table K V × Undo K V) (k a : K) :
    (take s k).2.taken a = if k = a then s.1[k]?.or (s.2.taken k) else s.2.taken a := by
  unfold Undo.take
  split
  · rename_i v hv
    show Table.lastOf (s.2.spent ++ [(k, v)]) a = _
    rw [Table.lastOf_append, Table.lastOf_singleton]
    by_cases h : k = a
    · subst h
      simp [hv]
    · simp [h, taken]
  · rename_i hnone
    by_cases h : k = a
    · subst h
      simp [hnone]
    · simp [h]

theorem taken_takeAll {ks : List K} (hnd : ks.Nodup) : ∀ (s : Table K V × Undo K V) (a : K),
    (takeAll s ks).2.taken a = if a ∈ ks then s.1[a]?.or (s.2.taken a) else s.2.taken a := by
  induction ks with
  | nil => intro s a; simp [takeAll]
  | cons k ks ih =>
    obtain ⟨hk, hnd⟩ := List.nodup_cons.mp hnd
    intro s a
    show (takeAll (take s k) ks).2.taken a = _
    rw [ih hnd, taken_take, take_fst, Table.get_erase]
    by_cases h : k = a
    · subst h
      simp [hk]
    · have : a ≠ k := fun e => h e.symm
      simp [h, this]

/-- What the record of `s` knows of `m₀`: it is what the table was but where something was taken
    last. -/
structure Logged (m₀ : Table K V) (s : Table K V × Undo K V) : Prop where
  created : ∀ k ∈ s.2.created, s.2.taken k = none → m₀[k]? = none
  kept : ∀ k, k ∉ s.2.created → s.2.taken k = none → s.1[k]? = m₀[k]?

theorem logged_empty (m : Table K V) : Logged m (m, empty) := ⟨by simp [empty], fun _ _ _ => rfl⟩

theorem Logged.take {m₀ : Table K V} {s : Table K V × Undo K V} (h : Logged m₀ s) (k : K) : Logged m₀ (take s k) := by
  have htaken : ∀ a, (Undo.take s k).2.taken a = none → s.2.taken a = none ∧ (k = a → s.1[k]? = none) := by
    intro a ha
    rw [taken_take] at ha
    by_cases hk : k = a
    · rw [if_pos hk, Option.or_eq_none_iff] at ha
      exact ⟨hk ▸ ha.2, fun _ => ha.1⟩
    · rw [if_neg hk] at ha
      exact ⟨ha, fun e => absurd e hk⟩
  refine ⟨fun a ha hn => ?_, fun a ha hn => ?_⟩
  · rw [take_created] at ha
    exact h.created a ha (htaken a hn).1
  · rw [take_created] at ha
    rw [take_fst, Table.get_erase, ← h.kept a ha (htaken a hn).1]
    split
    · rename_i hk
      rw [← hk, (htaken a hn).2 hk]
    · rfl

theorem Logged.put {m₀ : Table K V} {s : Table K V × Undo K V} (h : Logged m₀ s) {k : K} (v : V) (hk : s.1[k]? = none) :
    Logged m₀ (put s k v) := by
  refine ⟨fun a ha hn => ?_, fun a ha hn => ?_⟩
  · by_cases hc : a ∈ s.2.created
    · exact h.created a hc hn
    · have hak : a = k := by
        rcases List.mem_append.mp ha with ha | ha
        · exact absurd ha hc
        · exact List.mem_singleton.mp ha
      subst hak
      rw [← h.kept a hc hn, hk]
  · simp only [Undo.put, List.mem_append, List.mem_singleton, not_or] at ha
    show (s.1.insert k v)[a]? = _
    rw [Table.get_insert_ne _ _ fun e => ha.2 e.symm]
    exact h.kept a ha.1 hn

theorem Logged.takeAll {m₀ : Table K V} (ks : List K) : ∀ {s : Table K V × Undo K V}, Logged m₀ s →
    Logged m₀ (takeAll s ks) := by
  induction ks with
  | nil => intro s h; exact h
  | cons k ks ih => intro s h; exact ih (h.take k)

theorem Logged.putAll {m₀ : Table K V} {l : List (K × V)} : ∀ {s : Table K V × Undo K V}, Logged m₀ s →
    (l.map (·.1)).Nodup → (∀ k ∈ l.map (·.1), s.1[k]? = none) → Logged m₀ (putAll s l) := by
  induction l with
  | nil => intro s h _ _; exact h
  | cons p l ih =>
    intro s h hnd hfresh
    obtain ⟨hp, hnd⟩ := List.nodup_cons.mp hnd
    refine ih (h.put p.2 (hfresh p.1 List.mem_cons_self)) hnd fun k hk => ?_
    show (s.1.insert p.1 p.2)[k]? = none
    have hne : p.1 ≠ k := by
      rintro rfl
      exact hp hk
    rw [Table.get_insert_ne _ _ hne]
    exact hfresh k (List.mem_cons_of_mem _ hk)

/-- Reverting gives the first table back exactly when what was taken last at every key is what
    was there at first. -/
theorem Logged.revert_eq_iff {m₀ : Table K V} {s : Table K V × Undo K V} (h : Logged m₀ s) :
    s.2.revert s.1 = m₀ ↔ ∀ k v, s.2.taken k = some v → m₀[k]? = some v := by
  constructor
  · intro heq k v hv
    rw [← heq, get_revert, hv, Option.some_or]
  · intro hall
    refine Table.ext fun k => ?_
    rw [get_revert]
    cases hv : s.2.taken k with
    | some v => exact (hall k v hv).symm
    | none =>
      rw [Option.none_or]
      split
      · rename_i hc
        exact (h.created k hc hv).symm
      · rename_i hc
        exact h.kept k hc hv

/-! ## Following a smaller table -/

/-- `s` took the changes that led from `m₀` to `m`, on a table that may hold more: it holds
    what `m` holds, and its record knows what `m₀` held. -/
structure Covers (m₀ m : Table K V) (s : Table K V × Undo K V) : Prop where
  within : Table.Within m s.1
  back : ∀ k v, m₀[k]? = some v → k ∉ s.2.created ∧ ((m[k]? = some v ∧ k ∉ s.2.spent.map (·.1)) ∨
    (m[k]? = none ∧ (k, v) ∈ s.2.spent ∧ ∀ w, (k, w) ∈ s.2.spent → w = v))

theorem covers_start {m t : Table K V} (h : Table.Within m t) : Covers m m (t, empty) :=
  ⟨h, fun _ _ hk => ⟨by simp [empty], .inl ⟨hk, by simp [empty]⟩⟩⟩

theorem Covers.take {m₀ m : Table K V} {s : Table K V × Undo K V} (h : Covers m₀ m s) {k : K} {v : V}
    (hk : m[k]? = some v) : Covers m₀ (m.erase k) (take s k) := by
  have htake : Undo.take s k = (s.1.erase k, { s.2 with spent := s.2.spent ++ [(k, v)] }) := by
    rw [Undo.take, h.within k v hk]
  rw [htake]
  constructor
  · intro a w ha
    rw [Table.get_erase] at ha ⊢
    by_cases e : k = a
    · rw [if_pos e] at ha
      cases ha
    · rw [if_neg e] at ha ⊢
      exact h.within a w ha
  · intro a w ha
    obtain ⟨hc, hcase⟩ := h.back a w ha
    refine ⟨hc, ?_⟩
    rw [Table.get_erase]
    by_cases e : k = a
    · -- taken for the first time, as it was still there
      subst e
      rw [hk] at hcase
      obtain ⟨hv, hnot⟩ := hcase.resolve_right (by simp)
      cases hv
      refine .inr ⟨if_pos rfl, by simp, fun w' hw' => ?_⟩
      rcases List.mem_append.mp hw' with hm | hm
      · exact absurd (List.mem_map.mpr ⟨_, hm, rfl⟩) hnot
      · exact (Prod.mk.inj (List.mem_singleton.mp hm)).2
    · rw [if_neg e]
      have hsame : ∀ w', (a, w') ∈ s.2.spent ++ [(k, v)] → (a, w') ∈ s.2.spent := by
        intro w' hw'
        rcases List.mem_append.mp hw' with hm | hm
        · exact hm
        · exact absurd (Prod.mk.inj (List.mem_singleton.mp hm)).1.symm e
      rcases hcase with ⟨h1, h2⟩ | ⟨h1, h2, h3⟩
      · refine .inl ⟨h1, fun hm => h2 ?_⟩
        obtain ⟨p, hp, rfl⟩ := List.mem_map.mp hm
        exact List.mem_map.mpr ⟨p, hsame p.2 hp, rfl⟩
      · exact .inr ⟨h1, List.mem_append_left _ h2, fun w' hw' => h3 w' (hsame w' hw')⟩

theorem Covers.put {m₀ m : Table K V} {s : Table K V × Undo K V} (h : Covers m₀ m s) {k : K} (v : V)
    (hk : m₀[k]? = none) : Covers m₀ (m.insert k v) (put s k v) := by
  constructor
  · intro a w ha
    show (s.1.insert k v)[a]? = some w
    rw [Table.get_insert] at ha ⊢
    by_cases e : k = a
    · rw [if_pos e] at ha ⊢
      exact ha
    · rw [if_neg e] at ha ⊢
      exact h.within a w ha
  · intro a w ha
    have hne : k ≠ a := by
      rintro rfl
      rw [hk] at ha
      cases ha
    obtain ⟨hc, hcase⟩ := h.back a w ha
    rw [Table.get_insert_ne _ _ hne]
    refine ⟨fun hm => ?_, hcase⟩
    rcases List.mem_append.mp hm with hm | hm
    · exact hc hm
    · exact hne (List.mem_singleton.mp hm).symm

theorem Covers.takeAll {m₀ : Table K V} {ks : List K} : ∀ {m : Table K V} {s : Table K V × Undo K V}, Covers m₀ m s →
    ks.Nodup → (∀ k ∈ ks, ∃ v, m[k]? = some v) → Covers m₀ (Table.eraseAll m ks) (takeAll s ks) := by
  induction ks with
  | nil => intro m s h _ _; exact h
  | cons k ks ih =>
    intro m s h hnd hall
    obtain ⟨hk, hnd⟩ := List.nodup_cons.mp hnd
    obtain ⟨v, hv⟩ := hall k List.mem_cons_self
    refine ih (h.take hv) hnd fun a ha => ?_
    obtain ⟨w, hw⟩ := hall a (List.mem_cons_of_mem _ ha)
    have hne : k ≠ a := fun e => hk (e ▸ ha)
    exact ⟨w, by rw [Table.get_erase, if_neg hne, hw]⟩

/-- Reverting a table that holds the last smaller one gives a table that holds the first. -/
theorem Covers.revert {m₀ m t : Table K V} {s : Table K V × Undo K V} (h : Covers m₀ m s) (ht : Table.Within m t) :
    Table.Within m₀ (s.2.revert t) := by
  intro k v hk
  obtain ⟨hc, hcase⟩ := h.back k v hk
  rcases Table.get_insertAll s.2.spent (Table.eraseAll t s.2.created) k with ⟨w, hw, hg⟩ | ⟨hn, hg⟩
  · rw [Undo.revert, hg]
    rcases hcase with ⟨-, hnot⟩ | ⟨-, -, hone⟩
    · exact absurd (List.mem_map.mpr ⟨_, hw, rfl⟩) hnot
    · rw [hone w hw]
  · rw [Undo.revert, hg, Table.get_eraseAll, if_neg hc]
    rcases hcase with ⟨hm, -⟩ | ⟨-, hspent, -⟩
    · exact ht k v hm
    · exact absurd (List.mem_map.mpr ⟨_, hspent, rfl⟩) hn

end Undo

end Scytale.Lib
