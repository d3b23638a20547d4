/-
  Scytale.Lib.Chunks — cutting lists and ranges into consecutive parts.

  - `flatMap_window`: windows of one size, one after the other, are the list as far as they
    reach.
  - `flatMap_share`: a range shared out among `n`, the last taking what the division leaves.
-/
import Mathlib.Data.List.Basic
import Mathlib.Data.List.Range

namespace Scytale.Lib

/-- The `i`-th window of `size` elements. -/
def window {α : Type} (size i : Nat) (l : List α) : List α := (l.drop (i * size)).take size

theorem flatMap_window {α : Type} (size k : Nat) (l : List α) :
    ((List.range k).flatMap fun i => window size i l) = l.take (k * size) := by
  induction k with
  | zero => simp
  | succ k ih =>
    rw [List.range_succ, List.flatMap_append, ih, Nat.succ_mul, List.take_add]
    simp [window]

theorem flatMap_window_eq {α : Type} {size k : Nat} {l : List α} (h : l.length ≤ k * size) :
    ((List.range k).flatMap fun i => window size i l) = l := by
  rw [flatMap_window, List.take_of_length_le h]

theorem window_eq_nil {α : Type} {size i : Nat} {l : List α} (h : l.length ≤ i * size) : window size i l = [] := by
  rw [window, List.drop_eq_nil_of_le h, List.take_nil]

/-! ## Shares -/

/-- Where the `t`-th of `n` shares of a range begins. -/
def shareStart (total n t : Nat) : Nat := t * (total / n)

/-- How long it is. -/
def shareSize (total n t : Nat) : Nat := if t = n - 1 then total - t * (total / n) else total / n

theorem shareStart_le {total n t : Nat} (h : t < n) : shareStart total n t ≤ total := by
  have h1 := Nat.mul_le_mul_right (total / n) (Nat.le_of_lt h)
  have h2 := Nat.mul_div_le total n
  rw [shareStart]
  omega

theorem flatMap_equal_shares (size k : Nat) :
    ((List.range k).flatMap fun t => (List.range size).map (t * size + ·)) = List.range (k * size) := by
  induction k with
  | zero => simp
  | succ k ih =>
    rw [List.range_succ, List.flatMap_append, ih, Nat.succ_mul, List.range_add]
    simp

theorem flatMap_share (total : Nat) {n : Nat} (hn : 0 < n) :
    ((List.range n).flatMap fun t => (List.range (shareSize total n t)).map (shareStart total n t + ·)) =
      List.range total := by
  obtain ⟨m, rfl⟩ := Nat.exists_eq_succ_of_ne_zero (Nat.pos_iff_ne_zero.mp hn)
  have hfirst : ((List.range m).flatMap fun t =>
        (List.range (shareSize total (m + 1) t)).map (shareStart total (m + 1) t + ·)) =
      List.range (m * (total / (m + 1))) := by
    rw [← flatMap_equal_shares]
    refine List.flatMap_congr fun t ht => ?_
    have hne : t ≠ m + 1 - 1 := by
      have := List.mem_range.mp ht
      omega
    rw [shareSize, if_neg hne, shareStart]
  have hlast : shareSize total (m + 1) m = total - m * (total / (m + 1)) := if_pos rfl
  have hle : m * (total / (m + 1)) ≤ total := shareStart_le (Nat.lt_succ_self m)
  rw [List.range_succ, List.flatMap_append, hfirst, List.flatMap_singleton, hlast, shareStart, ← List.range_add,
    Nat.add_sub_cancel' hle]

/-- So every number of the range is in a share. -/
theorem exists_share {total n k : Nat} (hn : 0 < n) (hk : k < total) :
    ∃ t < n, ∃ i < shareSize total n t, k = shareStart total n t + i := by
  have hmem : k ∈ List.range total := List.mem_range.mpr hk
  rw [← flatMap_share total hn] at hmem
  obtain ⟨t, ht, hmem⟩ := List.mem_flatMap.mp hmem
  obtain ⟨i, hi, rfl⟩ := List.mem_map.mp hmem
  exact ⟨t, List.mem_range.mp ht, i, List.mem_range.mp hi, rfl⟩

/-- And no share reaches beyond it. -/
theorem share_lt {total n t i : Nat} (ht : t < n) (hi : i < shareSize total n t) : shareStart total n t + i < total := by
  have hn : 0 < n := Nat.lt_of_le_of_lt (Nat.zero_le t) ht
  have hmem : shareStart total n t + i ∈ List.range total := by
    rw [← flatMap_share total hn]
    exact List.mem_flatMap.mpr ⟨t, List.mem_range.mpr ht, List.mem_map.mpr ⟨i, List.mem_range.mpr hi, rfl⟩⟩
  exact List.mem_range.mp hmem

end Scytale.Lib
