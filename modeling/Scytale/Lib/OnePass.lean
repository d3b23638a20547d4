/-
  Scytale.Lib.OnePass — taking the elements of a list in order, each when all it needs is
  there.

  An element has a key and needs keys. What a pass takes depends on the order alone: `settle`
  is the list of the keys that are there at its end.
  - `mem_settle_of_foldl`: a pass that takes nothing before what it needs holds no other keys.
  - `foldl_of_mem_settle`: a pass that takes all it can holds them all.
-/
import Mathlib

namespace Scytale.Lib.OnePass

variable {α K S : Type} [DecidableEq K] (key : α → K) (needs : α → List K)

/-- The keys there after the list, from those there before it. -/
def settle : List K → List α → List K
  | known, [] => known
  | known, a :: rest => settle (if ∀ n ∈ needs a, n ∈ known then key a :: known else known) rest

/-- An element whose needs are met is there. -/
theorem mem_settled {known : List K} {a : α} {k : K} :
    k ∈ (if ∀ n ∈ needs a, n ∈ known then key a :: known else known) ↔
      k ∈ known ∨ (k = key a ∧ ∀ n ∈ needs a, n ∈ known) := by
  split
  · rename_i h
    rw [List.mem_cons]
    tauto
  · rename_i h
    tauto

variable {key needs} (hold : S → K → Prop) {take : S → α → S}

/-- Nothing comes before what it needs. -/
theorem mem_settle_of_foldl
    (hsound : ∀ s a k, hold (take s a) k → hold s k ∨ (k = key a ∧ ∀ n ∈ needs a, hold s n)) (l : List α) :
    ∀ {s : S} {known : List K}, (∀ k, hold s k → k ∈ known) → ∀ k, hold (l.foldl take s) k →
      k ∈ settle key needs known l := by
  induction l with
  | nil => intro s known h k hk; exact h k hk
  | cons a l ih =>
    intro s known h k hk
    refine ih (fun k hk => (mem_settled key needs).mpr ?_) k hk
    rcases hsound s a k hk with hk | ⟨rfl, hn⟩
    · exact .inl (h k hk)
    · exact .inr ⟨rfl, fun n hmem => h n (hn n hmem)⟩

/-- What can be taken is taken: for keys that need only keys of their kind, under an invariant
    of the state and the rest of the list. -/
theorem foldl_of_mem_settle (good : K → Prop) (Inv : S → List α → Prop)
    (hstep : ∀ {s a l}, Inv s (a :: l) → Inv (take s a) l)
    (hkeep : ∀ {s a l}, Inv s (a :: l) → ∀ k, hold s k → hold (take s a) k)
    (htake : ∀ {s a l}, Inv s (a :: l) → good (key a) → (∀ n ∈ needs a, good n ∧ hold s n) → hold (take s a) (key a))
    (l : List α) (hgood : ∀ a ∈ l, good (key a) → ∀ n ∈ needs a, good n) : ∀ {s : S} {known : List K}, Inv s l →
      (∀ k ∈ known, good k → hold s k) → ∀ k ∈ settle key needs known l, good k → hold (l.foldl take s) k := by
  induction l with
  | nil => intro s known _ h k hk hg; exact h k hk hg
  | cons a l ih =>
    intro s known hinv h k hk hg
    refine ih (fun b hb => hgood b (List.mem_cons_of_mem a hb)) (hstep hinv) (fun k hk hg => ?_) k hk hg
    rcases (mem_settled key needs).mp hk with hk | ⟨rfl, hn⟩
    · exact hkeep hinv k (h k hk hg)
    · have hneeds := hgood a List.mem_cons_self hg
      exact htake hinv hg fun n hmem => ⟨hneeds n hmem, h n (hn n hmem) (hneeds n hmem)⟩

end Scytale.Lib.OnePass
