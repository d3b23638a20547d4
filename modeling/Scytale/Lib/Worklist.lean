/-
  Scytale.Lib.Worklist — walking a graph with a stack of nodes to visit and a list of those
  seen.

  - `visit_closed`: with fuel for every edge, the walk ends with all it started from, and with
    the successors of all it has seen.
  - `visit_within`: and it never leaves a set closed under successors.
  - `flood_closed` / `flood_within`: the same of a walk that counts a node as seen when it goes
    on the stack; no node is seen twice.
-/
import Mathlib

namespace Scytale.Lib.Worklist

variable {α : Type} [DecidableEq α] (next : α → List α)

/-- What was seen is passed over, what was not goes to the end of the list and its successors
    on the stack. -/
def visit : Nat → List α → List α → List α
  | 0, _, seen => seen
  | _ + 1, [], seen => seen
  | f + 1, a :: todo, seen => if a ∈ seen then visit f todo seen else visit f (next a ++ todo) (seen ++ [a])

/-- The edges that can still be pushed: those of the nodes not seen. -/
def work (keys seen : List α) : Nat := ((keys.filter (· ∉ seen)).map fun k => (next k).length).sum

/-- The successors of what was seen were seen or wait. -/
def Covered (todo seen : List α) : Prop := ∀ a ∈ seen, ∀ b ∈ next a, b ∈ seen ∨ b ∈ todo

variable {next}

theorem work_le (keys seen : List α) (a : α) : work next keys (seen ++ [a]) ≤ work next keys seen := by
  simp only [work, List.mem_append, List.mem_singleton]
  induction keys with
  | nil => simp
  | cons k keys ih =>
    by_cases hs : k ∈ seen
    · simpa [hs] using ih
    · by_cases ha : k = a
      · subst ha
        simp only [List.filter_cons, hs, not_true, not_false_iff, or_true, decide_true, decide_false, if_true,
          List.map_cons, List.sum_cons, Bool.false_eq_true, if_false]
        omega
      · simp only [List.filter_cons, hs, ha, or_self, not_false_iff, decide_true, if_true, List.map_cons, List.sum_cons]
        omega

/-- Seeing a node for the first time takes its edges out of the work. -/
theorem work_add_le {keys seen : List α} {a : α} (ha : a ∈ keys) (hs : a ∉ seen) :
    work next keys (seen ++ [a]) + (next a).length ≤ work next keys seen := by
  induction keys with
  | nil => cases ha
  | cons k keys ih =>
    rcases eq_or_ne k a with rfl | hne
    · have := @work_le _ _ next keys seen k
      simp only [work, List.filter_cons, List.mem_append, List.mem_singleton, hs, not_true, not_false_iff, or_true,
        decide_true, decide_false, if_true, List.map_cons, List.sum_cons, Bool.false_eq_true, if_false] at this ⊢
      omega
    · have := ih ((List.mem_cons.mp ha).resolve_left fun e => hne e.symm)
      by_cases hk : k ∈ seen
      · simpa [work, hk] using this
      · simp only [work, List.filter_cons, List.mem_append, List.mem_singleton, hk, hne, or_self, not_false_iff, decide_true,
          if_true, List.map_cons, List.sum_cons] at this ⊢
        omega

/-- The walk keeps what was seen, sees all that waits, and ends closed. -/
theorem visit_closed {keys : List α} (hkeys : ∀ a, next a ≠ [] → a ∈ keys) : ∀ (f : Nat) (todo seen : List α),
    todo.length + work next keys seen < f → Covered next todo seen →
    (∀ a ∈ seen, a ∈ visit next f todo seen) ∧ (∀ a ∈ todo, a ∈ visit next f todo seen) ∧
      ∀ a ∈ visit next f todo seen, ∀ b ∈ next a, b ∈ visit next f todo seen := by
  intro f
  induction f with
  | zero => intro todo seen hf _; omega
  | succ f ih =>
    intro todo seen hf hc
    cases todo with
    | nil => exact ⟨fun _ h => h, by simp, fun a ha b hb => (hc a ha b hb).resolve_right (by simp)⟩
    | cons a todo =>
      rw [List.length_cons] at hf
      unfold visit
      split
      · rename_i hs
        obtain ⟨h1, h2, h3⟩ := ih todo seen (by omega) fun x hx y hy => by
          rcases hc x hx y hy with h | h
          · exact .inl h
          · rcases List.mem_cons.mp h with rfl | h
            · exact .inl hs
            · exact .inr h
        refine ⟨h1, fun x hx => ?_, h3⟩
        rcases List.mem_cons.mp hx with rfl | hx
        · exact h1 _ hs
        · exact h2 _ hx
      · rename_i hs
        have hw : work next keys (seen ++ [a]) + (next a).length ≤ work next keys seen := by
          by_cases hn : next a = []
          · have := @work_le _ _ next keys seen a
            rw [hn]
            exact this
          · exact work_add_le (hkeys a hn) hs
        obtain ⟨h1, h2, h3⟩ := ih (next a ++ todo) (seen ++ [a]) (by rw [List.length_append]; omega) fun x hx y hy => by
          rcases List.mem_append.mp hx with hx | hx
          · rcases hc x hx y hy with h | h
            · exact .inl (List.mem_append_left _ h)
            · rcases List.mem_cons.mp h with rfl | h
              · exact .inl (List.mem_append_right _ List.mem_cons_self)
              · exact .inr (List.mem_append_right _ h)
          · rw [List.mem_singleton.mp hx] at hy
            exact .inr (List.mem_append_left _ hy)
        refine ⟨fun x hx => h1 x (List.mem_append_left _ hx), fun x hx => ?_, h3⟩
        rcases List.mem_cons.mp hx with rfl | hx
        · exact h1 _ (List.mem_append_right _ List.mem_cons_self)
        · exact h2 x (List.mem_append_right _ hx)

/-- With any fuel. -/
theorem visit_within {P : α → Prop} (hnext : ∀ a, P a → ∀ b ∈ next a, P b) : ∀ (f : Nat) (todo seen : List α),
    (∀ a ∈ todo, P a) → (∀ a ∈ seen, P a) → ∀ a ∈ visit next f todo seen, P a := by
  intro f
  induction f with
  | zero => intro todo seen _ hs; exact hs
  | succ f ih =>
    intro todo seen ht hs
    cases todo with
    | nil => exact hs
    | cons a todo =>
      have ha : P a := ht a List.mem_cons_self
      have hrest : ∀ b ∈ todo, P b := fun b hb => ht b (List.mem_cons_of_mem a hb)
      unfold visit
      split
      · exact ih todo seen hrest hs
      · refine ih (next a ++ todo) (seen ++ [a]) (fun b hb => ?_) fun b hb => ?_
        · rcases List.mem_append.mp hb with hb | hb
          · exact hnext a ha b hb
          · exact hrest b hb
        · rcases List.mem_append.mp hb with hb | hb
          · exact hs b hb
          · rw [List.mem_singleton.mp hb]
            exact ha

/-! ## Seen when put on the stack -/

section
variable (next : α → List α)

/-- The successors that were not seen yet. -/
def unseen (seen : List α) (a : α) : List α := (next a).filter (· ∉ seen)

/-- Successors go on the stack once. -/
def flood : Nat → List α → List α → List α
  | 0, _, seen => seen
  | _ + 1, [], seen => seen
  | f + 1, a :: todo, seen => flood f (unseen next seen a ++ todo) (unseen next seen a ++ seen)

end

theorem mem_unseen {seen : List α} {a b : α} : b ∈ unseen next seen a ↔ b ∈ next a ∧ b ∉ seen := by
  simp [unseen]

theorem unseen_append_nodup (hnext : ∀ a, (next a).Nodup) {seen : List α} (hs : seen.Nodup) (a : α) :
    (unseen next seen a ++ seen).Nodup :=
  List.nodup_append'.mpr ⟨(hnext a).filter _, hs, fun _ hb hin => (mem_unseen.mp hb).2 hin⟩

theorem flood_nodup (hnext : ∀ a, (next a).Nodup) : ∀ (f : Nat) (todo seen : List α), seen.Nodup →
    (flood next f todo seen).Nodup := by
  intro f
  induction f with
  | zero => intro todo seen hs; exact hs
  | succ f ih =>
    intro todo seen hs
    cases todo with
    | nil => exact hs
    | cons a todo => exact ih _ _ (unseen_append_nodup hnext hs a)

/-- With any fuel. -/
theorem flood_within {P : α → Prop} (hP : ∀ a, P a → ∀ b ∈ next a, P b) : ∀ (f : Nat) (todo seen : List α),
    (∀ a ∈ todo, P a) → (∀ a ∈ seen, P a) → ∀ a ∈ flood next f todo seen, P a := by
  intro f
  induction f with
  | zero => intro todo seen _ hs; exact hs
  | succ f ih =>
    intro todo seen ht hs
    cases todo with
    | nil => exact hs
    | cons a todo =>
      obtain ⟨ha, ht⟩ := List.forall_mem_cons.mp ht
      have hnew : ∀ b ∈ unseen next seen a, P b := fun b hb => hP a ha b (mem_unseen.mp hb).1
      exact ih _ _ (List.forall_mem_append.mpr ⟨hnew, ht⟩) (List.forall_mem_append.mpr ⟨hnew, hs⟩)

/-- Each node that is seen is one of those to be seen less. -/
theorem filter_unseen_le {targets seen new : List α} (hnew : new.Nodup) (hsub : ∀ a ∈ new, a ∈ targets ∧ a ∉ seen)
    (htargets : targets.Nodup) :
    (targets.filter (· ∉ new ++ seen)).length + new.length ≤ (targets.filter (· ∉ seen)).length := by
  have hnodup : (targets.filter (· ∉ new ++ seen) ++ new).Nodup := by
    refine List.nodup_append'.mpr ⟨htargets.filter _, hnew, fun a ha hin => ?_⟩
    simp [hin] at ha
  have hall : targets.filter (· ∉ new ++ seen) ++ new ⊆ targets.filter (· ∉ seen) := by
    intro a ha
    rcases List.mem_append.mp ha with ha | ha
    · simp only [List.mem_append, not_or, List.mem_filter, decide_eq_true_eq] at ha ⊢
      exact ⟨ha.1, ha.2.2⟩
    · simpa using hsub a ha
  have hle := (List.subperm_of_subset hnodup hall).length_le
  rwa [List.length_append] at hle

/-- With fuel for every node, the walk keeps what was seen and ends closed. -/
theorem flood_closed (hnext : ∀ a, (next a).Nodup) {targets : List α} (htargets : targets.Nodup)
    (hin : ∀ a, ∀ b ∈ next a, b ∈ targets) : ∀ (f : Nat) (todo seen : List α),
    todo.length + (targets.filter (· ∉ seen)).length < f → (∀ a ∈ seen, a ∈ todo ∨ ∀ b ∈ next a, b ∈ seen) →
    (∀ a ∈ seen, a ∈ flood next f todo seen) ∧
      ∀ a ∈ flood next f todo seen, ∀ b ∈ next a, b ∈ flood next f todo seen := by
  intro f
  induction f with
  | zero => intro todo seen hf _; omega
  | succ f ih =>
    intro todo seen hf hc
    cases todo with
    | nil => exact ⟨fun _ h => h, fun a ha => (hc a ha).resolve_left (by simp)⟩
    | cons a todo =>
      have hle := filter_unseen_le ((hnext a).filter (· ∉ seen))
        (fun b hb => ⟨hin a b (mem_unseen.mp hb).1, (mem_unseen.mp hb).2⟩) htargets
      rw [List.length_cons] at hf
      obtain ⟨hkeeps, hclosed⟩ := ih (unseen next seen a ++ todo) (unseen next seen a ++ seen)
        (by rw [List.length_append]; unfold unseen; omega) fun x hx => by
          rcases List.mem_append.mp hx with hx | hx
          · exact .inl (List.mem_append_left _ hx)
          · rcases hc x hx with hx | hx
            · rcases List.mem_cons.mp hx with rfl | hx
              · -- its successors are seen now
                refine .inr fun b hb => ?_
                by_cases hb' : b ∈ seen
                · exact List.mem_append_right _ hb'
                · exact List.mem_append_left _ (mem_unseen.mpr ⟨hb, hb'⟩)
              · exact .inl (List.mem_append_right _ hx)
            · exact .inr fun b hb => List.mem_append_right _ (hx b hb)
      exact ⟨fun x hx => hkeeps x (List.mem_append_right _ hx), hclosed⟩

end Scytale.Lib.Worklist
