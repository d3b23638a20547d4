/-
  Scytale.Lib.Merkle — binary hash trees whose odd levels pair their last node with itself,
  over any type of digests and any combining function.

  - `root_map`: computing a root commutes with every map that respects the combining
    functions. So a root can be computed symbolically, as a tree, and the tree be read
    either as its digest or as the sequence of its leaves.
  - `Extends`: a list, with some of its own elements written behind it, ending as it did.
    The leaves of a list's tree extend the list.
  - `extends_of_root_eq`: two lists with one root, where the combining function has no
    collision among the pairs combined and gives no leaf, extend one another one way round.
  - `mem_of_climb`: a path of any siblings, climbed from a digest that is no inner node,
    reaches a list's root only from one of its elements.
  - `audit_climbs`: the siblings read off the levels lead from each element to the root, over
    pairs that were combined for it.
-/
import Mathlib.Data.List.Infix
import Mathlib.Data.Set.Function

namespace Scytale.Lib.Merkle

section
variable {T : Type} (node : T → T → T)

/-- The pairs of a level. -/
def pairs : List T → List (T × T)
  | a :: b :: l => (a, b) :: pairs l
  | [a] => [(a, a)]
  | [] => []

def level : List T → List T
  | a :: b :: l => node a b :: level l
  | [a] => [node a a]
  | [] => []

/-- Levels until one node is left. -/
def loop : Nat → List T → Option T
  | _, [] => none
  | _, [a] => some a
  | 0, a :: _ => some a
  | f + 1, l => loop f (level node l)

/-- Each level is shorter, so the number of leaves is fuel enough. -/
def root (l : List T) : Option T := loop node l.length l

/-- The pairs combined on the way. -/
def combinedF : Nat → List T → List (T × T)
  | _, [] => []
  | _, [_] => []
  | 0, _ => []
  | f + 1, l => pairs l ++ combinedF f (level node l)

def combined (l : List T) : List (T × T) := combinedF node l.length l

end

variable {S T : Type} {node : T → T → T}

theorem level_length (l : List T) : (level node l).length = (l.length + 1) / 2 := by
  fun_induction level node l with
  | case1 a b l ih => simp only [List.length_cons, ih]; omega
  | case2 a => simp
  | case3 => simp

theorem level_ne_nil {l : List T} (h : l ≠ []) : level node l ≠ [] := by
  intro he
  have hlen : (level node l).length = (l.length + 1) / 2 := level_length l
  rw [he] at hlen
  have hpos := List.length_pos_of_ne_nil h
  simp at hlen
  omega

/-- The root of a list that is not empty. -/
theorem loop_isSome : ∀ (f : Nat) {l : List T}, l ≠ [] → ∃ a, loop node f l = some a := by
  intro f
  induction f with
  | zero =>
    intro l h
    rcases l with _ | ⟨a, _ | ⟨b, l⟩⟩
    · exact absurd rfl h
    · exact ⟨a, rfl⟩
    · exact ⟨a, rfl⟩
  | succ f ih =>
    intro l h
    rcases l with _ | ⟨a, _ | ⟨b, l⟩⟩
    · exact absurd rfl h
    · exact ⟨a, rfl⟩
    · exact ih (level_ne_nil h)

theorem root_eq_none {l : List T} : root node l = none ↔ l = [] := by
  constructor
  · intro h
    by_contra hne
    obtain ⟨a, ha⟩ : ∃ a, loop node l.length l = some a := loop_isSome l.length hne
    rw [root, ha] at h
    cases h
  · rintro rfl
    rfl

/-! ## Maps -/

section
variable {nodeS : S → S → S} {f : S → T} (hf : ∀ a b, f (nodeS a b) = node (f a) (f b))

include hf

theorem level_map (l : List S) : level node (l.map f) = (level nodeS l).map f := by
  fun_induction level nodeS l with
  | case1 a b l ih => simp only [List.map_cons, level, ih, hf]
  | case2 a => simp only [List.map_cons, List.map_nil, level, hf]
  | case3 => rfl

theorem loop_map : ∀ (k : Nat) (l : List S), loop node k (l.map f) = (loop nodeS k l).map f := by
  intro k
  induction k with
  | zero => intro l; rcases l with _ | ⟨a, _ | ⟨b, l⟩⟩ <;> rfl
  | succ k ih =>
    intro l
    rcases l with _ | ⟨a, _ | ⟨b, l⟩⟩
    · rfl
    · rfl
    · show loop node k (level node ((a :: b :: l).map f)) = (loop nodeS k (level nodeS (a :: b :: l))).map f
      rw [level_map hf, ih]

theorem root_map (l : List S) : root node (l.map f) = (root nodeS l).map f := by
  rw [root, List.length_map, loop_map hf, root]

end

/-! ## Lists that extend one another -/

theorem eq_of_map_eq {D E : Type} {f : D → E} : ∀ {l m : List D}, (∀ x ∈ l, ∀ y ∈ m, f x = f y → x = y) →
    l.map f = m.map f → l = m := by
  intro l
  induction l with
  | nil => intro m _ h; exact (List.map_eq_nil_iff.mp h.symm).symm
  | cons x l ih =>
    intro m hf h
    rcases m with _ | ⟨y, m⟩
    · cases h
    · obtain ⟨hxy, hlm⟩ := List.cons.inj h
      rw [hf x List.mem_cons_self y List.mem_cons_self hxy,
        ih (fun a ha b hb => hf a (List.mem_cons_of_mem _ ha) b (List.mem_cons_of_mem _ hb)) hlm]

structure Extends {D : Type} (l m : List D) : Prop where
  isPrefix : l <+: m
  mem : ∀ x ∈ m, x ∈ l
  last : m.getLast? = l.getLast?

namespace Extends

variable {D : Type} {l m n w : List D}

theorem refl (l : List D) : Extends l l := ⟨List.prefix_rfl, fun _ h => h, rfl⟩

theorem trans (h : Extends l m) (h' : Extends m n) : Extends l n :=
  ⟨h.isPrefix.trans h'.isPrefix, fun x hx => h.mem x (h'.mem x hx), h'.last.trans h.last⟩

theorem append_left (w : List D) (h : Extends l m) : Extends (w ++ l) (w ++ m) where
  isPrefix := (List.prefix_append_right_inj w).mpr h.isPrefix
  mem x hx := by
    rcases List.mem_append.mp hx with hx | hx
    · exact List.mem_append_left _ hx
    · exact List.mem_append_right _ (h.mem x hx)
  last := by rw [List.getLast?_append, List.getLast?_append, h.last]

theorem self_append (l : List D) : Extends l (l ++ l) where
  isPrefix := List.prefix_append l l
  mem x hx := (List.mem_append.mp hx).elim id id
  last := by rw [List.getLast?_append, Option.or_self]

/-- A list without repetitions extends nothing but itself. -/
theorem eq_of_nodup (h : Extends l m) (hm : m.Nodup) : l = m := by
  obtain ⟨e, rfl⟩ := h.isPrefix
  cases e with
  | nil => rw [List.append_nil]
  | cons x e =>
    have hx : x ∈ l := h.mem x (List.mem_append_right _ List.mem_cons_self)
    exact absurd rfl (List.nodup_append.mp hm |>.2.2 x hx x List.mem_cons_self)

theorem of_map {E : Type} {f : D → E} (hf : Set.InjOn f {x | x ∈ l ∨ x ∈ m}) (h : Extends (l.map f) (m.map f)) :
    Extends l m where
  isPrefix := by
    obtain ⟨e, he⟩ := h.isPrefix
    have hlen : l.length ≤ m.length := by
      have := congrArg List.length he
      simp only [List.length_append, List.length_map] at this
      omega
    have hmap : l.map f = (m.take l.length).map f := by
      rw [List.map_take, ← he, List.take_left' (by simp)]
    have hl : l = m.take l.length :=
      eq_of_map_eq (fun x hx y hy => hf (.inl hx) (.inr (List.mem_of_mem_take hy))) hmap
    rw [hl]
    exact List.take_prefix _ _
  mem x hx := by
    obtain ⟨y, hy, hxy⟩ := List.mem_map.mp (h.mem (f x) (List.mem_map_of_mem hx))
    exact hf (.inl hy) (.inr hx) hxy ▸ hy
  last := by
    have hlast := h.last
    rw [List.getLast?_map, List.getLast?_map] at hlast
    cases hm : m.getLast? with
    | none =>
      rw [hm] at hlast
      exact (Option.map_eq_none_iff.mp hlast.symm).symm
    | some x =>
      cases hl : l.getLast? with
      | none => rw [hm, hl] at hlast; cases hlast
      | some y =>
        rw [hm, hl] at hlast
        rw [hf (.inr (List.mem_of_getLast? hm)) (.inl (List.mem_of_getLast? hl)) (Option.some.inj hlast)]

end Extends

theorem level_extends {D : Type} (xs : List (List D)) : Extends xs.flatten (level (· ++ ·) xs).flatten := by
  fun_induction level (fun a b : List D => a ++ b) xs with
  | case1 a b l ih =>
    rw [List.flatten_cons, List.flatten_cons, List.flatten_cons, ← List.append_assoc]
    exact ih.append_left (a ++ b)
  | case2 a =>
    simp only [List.flatten_cons, List.flatten_nil, List.append_nil]
    exact .self_append a
  | case3 => exact .refl _

theorem loop_extends {D : Type} : ∀ (f : Nat) {xs : List (List D)} {r : List D}, xs.length ≤ f + 1 →
    loop (· ++ ·) f xs = some r → Extends xs.flatten r := by
  intro f
  induction f with
  | zero =>
    intro xs r hlen h
    rcases xs with _ | ⟨a, _ | ⟨b, xs⟩⟩
    · cases h
    · cases h
      simpa using Extends.refl r
    · simp at hlen
  | succ f ih =>
    intro xs r hlen h
    rcases xs with _ | ⟨a, _ | ⟨b, xs⟩⟩
    · cases h
    · cases h
      simpa using Extends.refl r
    · have hshort : (level (· ++ ·) (a :: b :: xs)).length ≤ f + 1 := by
        rw [level_length]
        simp only [List.length_cons] at hlen ⊢
        omega
      exact (level_extends _).trans (ih hshort h)

/-! ## Symbolic roots -/

inductive Tree (D : Type) where
  | leaf (d : D)
  | node (l r : Tree D)

namespace Tree

variable {D : Type}

def eval (node : D → D → D) : Tree D → D
  | leaf d => d
  | .node l r => node (l.eval node) (r.eval node)

def leaves : Tree D → List D
  | leaf d => [d]
  | .node l r => l.leaves ++ r.leaves

/-- The pairs combined in evaluating the tree. -/
def inner (node : D → D → D) : Tree D → List (D × D)
  | leaf _ => []
  | .node l r => (l.eval node, r.eval node) :: (l.inner node ++ r.inner node)

/-- Trees of one digest are one tree, if no two pairs collide and no pair gives a leaf. -/
theorem eval_inj {node : D → D → D} {P : Set (D × D)} {L : Set D} (hinj : Set.InjOn (fun p => node p.1 p.2) P)
    (hleaf : ∀ d ∈ L, ∀ p ∈ P, d ≠ node p.1 p.2) : ∀ {t u : Tree D}, (∀ p ∈ t.inner node, p ∈ P) →
      (∀ p ∈ u.inner node, p ∈ P) → (∀ d ∈ t.leaves, d ∈ L) → (∀ d ∈ u.leaves, d ∈ L) →
      t.eval node = u.eval node → t = u := by
  intro t
  induction t with
  | leaf d =>
    intro u _ hu hd _ h
    cases u with
    | leaf e => exact congrArg leaf h
    | node l r => exact absurd h (hleaf d (hd d List.mem_cons_self) _ (hu _ List.mem_cons_self))
  | node l r ihl ihr =>
    intro u ht hu hdt hdu h
    cases u with
    | leaf e => exact absurd h.symm (hleaf e (hdu e List.mem_cons_self) _ (ht _ List.mem_cons_self))
    | node l' r' =>
      have hpair : (l.eval node, r.eval node) = (l'.eval node, r'.eval node) :=
        hinj (ht _ List.mem_cons_self) (hu _ List.mem_cons_self) h
      simp only [inner, leaves, List.mem_cons, List.mem_append] at ht hu hdt hdu
      obtain ⟨h1, h2⟩ := Prod.mk.inj hpair
      rw [ihl (fun p hp => ht p (.inr (.inl hp))) (fun p hp => hu p (.inr (.inl hp)))
          (fun d hd => hdt d (.inl hd)) (fun d hd => hdu d (.inl hd)) h1,
        ihr (fun p hp => ht p (.inr (.inr hp))) (fun p hp => hu p (.inr (.inr hp)))
          (fun d hd => hdt d (.inr hd)) (fun d hd => hdu d (.inr hd)) h2]

end Tree

section
variable {D : Type} {node : D → D → D}

theorem level_inner (ts : List (Tree D)) : ∀ t ∈ level Tree.node ts, ∀ p ∈ t.inner node,
    p ∈ pairs (ts.map (Tree.eval node)) ∨ ∃ u ∈ ts, p ∈ u.inner node := by
  fun_induction level (Tree.node (D := D)) ts with
  | case1 a b l ih =>
    intro t ht p hp
    rcases List.mem_cons.mp ht with rfl | ht
    · simp only [Tree.inner, List.mem_cons, List.mem_append] at hp
      rcases hp with rfl | hp | hp
      · exact .inl List.mem_cons_self
      · exact .inr ⟨a, List.mem_cons_self, hp⟩
      · exact .inr ⟨b, List.mem_cons_of_mem _ List.mem_cons_self, hp⟩
    · rcases ih t ht p hp with h | ⟨u, hu, h⟩
      · exact .inl (List.mem_cons_of_mem _ h)
      · exact .inr ⟨u, List.mem_cons_of_mem _ (List.mem_cons_of_mem _ hu), h⟩
  | case2 a =>
    intro t ht p hp
    rw [List.mem_singleton.mp ht] at hp
    simp only [Tree.inner, List.mem_cons, List.mem_append] at hp
    rcases hp with rfl | hp | hp
    · exact .inl List.mem_cons_self
    · exact .inr ⟨a, List.mem_cons_self, hp⟩
    · exact .inr ⟨a, List.mem_cons_self, hp⟩
  | case3 => intro t ht; cases ht

theorem loop_inner : ∀ (f : Nat) {ts : List (Tree D)} {t : Tree D}, ts.length ≤ f + 1 → loop Tree.node f ts = some t →
    ∀ p ∈ t.inner node, p ∈ combinedF node f (ts.map (Tree.eval node)) ∨ ∃ u ∈ ts, p ∈ u.inner node := by
  intro f
  induction f with
  | zero =>
    intro ts t hlen h p hp
    rcases ts with _ | ⟨a, _ | ⟨b, ts⟩⟩
    · cases h
    · cases h
      exact .inr ⟨t, List.mem_cons_self, hp⟩
    · simp at hlen
  | succ f ih =>
    intro ts t hlen h p hp
    rcases ts with _ | ⟨a, _ | ⟨b, ts⟩⟩
    · cases h
    · cases h
      exact .inr ⟨t, List.mem_cons_self, hp⟩
    · have hshort : (level Tree.node (a :: b :: ts)).length ≤ f + 1 := by
        rw [level_length]
        simp only [List.length_cons] at hlen ⊢
        omega
      have hmap : (level Tree.node (a :: b :: ts)).map (Tree.eval node) =
          level node ((a :: b :: ts).map (Tree.eval node)) := (level_map (fun _ _ => rfl) _).symm
      rcases ih hshort h p hp with hc | ⟨u, hu, hc⟩
      · rw [hmap] at hc
        exact .inl (List.mem_append_right _ hc)
      · rcases level_inner _ u hu p hc with hc | hc
        · exact .inl (List.mem_append_left _ hc)
        · exact .inr hc

/-- The tree of a list: its digest is the list's root, its pairs are those combined, and
    its leaves extend the list. -/
theorem exists_tree {l : List D} {d : D} (h : root node l = some d) : ∃ t : Tree D, t.eval node = d ∧
    (∀ p ∈ t.inner node, p ∈ combined node l) ∧ Extends l t.leaves := by
  have hne : l.map Tree.leaf ≠ [] := by
    rintro he
    rw [List.map_eq_nil_iff.mp he] at h
    cases h
  obtain ⟨t, ht⟩ : ∃ t, loop Tree.node (l.map Tree.leaf).length (l.map Tree.leaf) = some t := loop_isSome _ hne
  have hroot : root Tree.node (l.map Tree.leaf) = some t := ht
  have heval : (l.map Tree.leaf).map (Tree.eval node) = l := by
    rw [List.map_map]
    exact List.map_id _
  refine ⟨t, ?_, ?_, ?_⟩
  · have hmap : root node ((l.map Tree.leaf).map (Tree.eval node)) = (root Tree.node (l.map Tree.leaf)).map (Tree.eval node) :=
      root_map (fun _ _ => rfl) _
    rw [heval, h, hroot] at hmap
    exact (Option.some.inj hmap).symm
  · intro p hp
    rcases loop_inner _ (by omega) ht p hp with hc | ⟨u, hu, hc⟩
    · rwa [heval, List.length_map] at hc
    · obtain ⟨x, -, rfl⟩ := List.mem_map.mp hu
      cases hc
  · have hleaves : root (· ++ ·) ((l.map Tree.leaf).map Tree.leaves) = (root Tree.node (l.map Tree.leaf)).map Tree.leaves :=
      root_map (fun _ _ => rfl) _
    rw [hroot] at hleaves
    have := loop_extends _ (by omega) hleaves
    rwa [List.map_map, show (Tree.leaves ∘ Tree.leaf : D → List D) = fun x => [x] from rfl, ← List.flatMap_def,
      List.flatMap_singleton'] at this

/-- Lists of one root extend one another, one way round. -/
theorem extends_of_root_eq {l m : List D} {d : D} (hl : root node l = some d) (hm : root node m = some d)
    (hinj : Set.InjOn (fun p => node p.1 p.2) {p | p ∈ combined node l ∨ p ∈ combined node m})
    (hleaf : ∀ x, x ∈ l ∨ x ∈ m → ∀ p, p ∈ combined node l ∨ p ∈ combined node m → x ≠ node p.1 p.2) :
    Extends l m ∨ Extends m l := by
  obtain ⟨t, ht, hpt, het⟩ := exists_tree hl
  obtain ⟨u, hu, hpu, heu⟩ := exists_tree hm
  have htu : t = u := Tree.eval_inj (L := {x | x ∈ l ∨ x ∈ m}) hinj hleaf (fun p hp => .inl (hpt p hp))
    (fun p hp => .inr (hpu p hp)) (fun x hx => .inl (het.mem x hx)) (fun x hx => .inr (heu.mem x hx)) (ht.trans hu.symm)
  subst htu
  have hlast : l.getLast? = m.getLast? := het.last.symm.trans heu.last
  rcases List.prefix_or_prefix_of_prefix het.isPrefix heu.isPrefix with h | h
  · exact .inl ⟨h, fun x hx => het.mem x (heu.isPrefix.mem hx), hlast.symm⟩
  · exact .inr ⟨h, fun x hx => heu.mem x (het.isPrefix.mem hx), hlast⟩

end

/-! ## Paths -/

section
variable (node : T → T → T)

/-- Climbing a path: each sibling with the side it is on, `true` for the right. -/
def climb (x : T) (path : List (T × Bool)) : T :=
  path.foldl (fun cur s => if s.2 then node cur s.1 else node s.1 cur) x

/-- The pairs combined on the way up. -/
def climbed : T → List (T × Bool) → List (T × T)
  | _, [] => []
  | x, s :: path =>
    let p := if s.2 then (x, s.1) else (s.1, x)
    p :: climbed (node p.1 p.2) path

/-- An odd level with its last node written twice. -/
def pad (l : List T) : List T := if l.length % 2 = 1 then l ++ l.getLast?.toList else l

/-- The siblings on the way up from position `i`, read off the levels. -/
def audit : Nat → List T → Nat → Option (List (T × Bool))
  | _, [], _ => some []
  | _, [_], _ => some []
  | 0, _, _ => some []
  | f + 1, l, i =>
    match (pad l)[if i % 2 = 0 then i + 1 else i - 1]?, audit f (level node (pad l)) (i / 2) with
    | some s, some path => some ((s, i % 2 == 0) :: path)
    | _, _ => none

end

@[simp] theorem climb_nil (x : T) : climb node x [] = x := rfl

theorem climb_cons (x : T) (s : T × Bool) (path : List (T × Bool)) :
    climb node x (s :: path) = climb node (if s.2 then node x s.1 else node s.1 x) path := rfl

theorem climb_singleton (x : T) (s : T × Bool) : climb node x [s] =
    node (if s.2 then (x, s.1) else (s.1, x)).1 (if s.2 then (x, s.1) else (s.1, x)).2 := by
  cases hs : s.2 <;> simp [climb, hs]

theorem climb_append (x : T) (p q : List (T × Bool)) : climb node x (p ++ q) = climb node (climb node x p) q :=
  List.foldl_append

theorem climbed_append (x : T) (p q : List (T × Bool)) :
    climbed node x (p ++ q) = climbed node x p ++ climbed node (climb node x p) q := by
  induction p generalizing x with
  | nil => rfl
  | cons s p ih =>
    rw [List.cons_append, climbed, climbed, climb_cons, ih, List.cons_append]
    cases s.2 <;> rfl

/-- A path that leads from a digest that is no inner node to a tree's root starts at a
    leaf of the tree. -/
theorem Tree.mem_leaves_of_climb {P : Set (T × T)} {x : T} (hinj : Set.InjOn (fun p => node p.1 p.2) P)
    (hx : ∀ p ∈ P, x ≠ node p.1 p.2) (path : List (T × Bool)) : ∀ {t : Tree T}, (∀ p ∈ t.inner node, p ∈ P) →
      (∀ d ∈ t.leaves, ∀ p ∈ P, d ≠ node p.1 p.2) → (∀ p ∈ climbed node x path, p ∈ P) →
      climb node x path = t.eval node → x ∈ t.leaves := by
  -- the last sibling of the path stands at the tree's own root
  induction path using List.reverseRecOn with
  | nil =>
    intro t ht _ _ h
    cases t with
    | leaf d => exact List.mem_singleton.mpr h
    | node l r => exact absurd h (hx _ (ht _ List.mem_cons_self))
  | append_singleton path s ih =>
    intro t ht hleaf hp h
    rw [climbed_append] at hp
    rw [climb_append] at h
    have hlast := hp _ (List.mem_append_right _ List.mem_cons_self)
    have hpath : ∀ p ∈ climbed node x path, p ∈ P := fun p hm => hp p (List.mem_append_left _ hm)
    cases t with
    | leaf d => exact absurd (h.symm.trans (climb_singleton _ s)) (hleaf d List.mem_cons_self _ hlast)
    | node l r =>
      simp only [Tree.inner, Tree.leaves, List.mem_cons, List.mem_append] at ht hleaf
      have hpair : (if s.2 then (climb node x path, s.1) else (s.1, climb node x path)) =
          (l.eval node, r.eval node) :=
        hinj hlast (ht _ (.inl rfl)) ((climb_singleton _ s).symm.trans h)
      refine List.mem_append.mpr ?_
      cases hs : s.2 with
      | true =>
        rw [hs, if_pos rfl] at hpair
        exact .inl (ih (fun p hm => ht p (.inr (.inl hm))) (fun d hd => hleaf d (.inl hd)) hpath (Prod.mk.inj hpair).1)
      | false =>
        rw [hs, if_neg (by simp)] at hpair
        exact .inr (ih (fun p hm => ht p (.inr (.inr hm))) (fun d hd => hleaf d (.inr hd)) hpath (Prod.mk.inj hpair).2)

theorem mem_of_climb {l : List T} {x d : T} {path : List (T × Bool)} (hl : root node l = some d)
    (hinj : Set.InjOn (fun p => node p.1 p.2) {p | p ∈ combined node l ∨ p ∈ climbed node x path})
    (hleaf : ∀ y, y ∈ l ∨ y = x → ∀ p, p ∈ combined node l ∨ p ∈ climbed node x path → y ≠ node p.1 p.2)
    (h : climb node x path = d) : x ∈ l := by
  obtain ⟨t, rfl, hinner, hleaves⟩ := exists_tree hl
  exact hleaves.mem x (Tree.mem_leaves_of_climb hinj (hleaf x (.inr rfl)) path (fun p hp => .inl (hinner p hp))
    (fun y hy => hleaf y (.inl (hleaves.mem y hy))) (fun p hp => .inr hp) h)

/-! ### The siblings of a position -/

theorem pad_cons_cons (a b : T) (l : List T) : pad (a :: b :: l) = a :: b :: pad l := by
  unfold pad
  rw [show (a :: b :: l).length % 2 = l.length % 2 by simp only [List.length_cons]; omega]
  by_cases h : l.length % 2 = 1
  · rw [if_pos h, if_pos h]
    rcases l with _ | ⟨c, l⟩
    · simp at h
    · rfl
  · rw [if_neg h, if_neg h]

theorem level_pad (l : List T) : level node (pad l) = level node l := by
  fun_induction level node l with
  | case1 a b l ih => rw [pad_cons_cons, level, ih]
  | case2 a => rfl
  | case3 => rfl

theorem level_eq_map (l : List T) : level node l = (pairs l).map fun p => node p.1 p.2 := by
  fun_induction level node l with
  | case1 a b l ih => rw [ih]; rfl
  | case2 a => rfl
  | case3 => rfl

/-- The pairs of a level are those of neighbours in the padded level. -/
theorem getElem?_pairs (l : List T) : ∀ (j : Nat) {x y : T}, (pad l)[2 * j]? = some x → (pad l)[2 * j + 1]? = some y →
    (pairs l)[j]? = some (x, y) := by
  fun_induction pairs l with
  | case1 a b l ih =>
    intro j x y hx hy
    rw [pad_cons_cons] at hx hy
    cases j with
    | zero =>
      cases hx
      cases hy
      rfl
    | succ j => exact ih j (by simpa [Nat.mul_succ] using hx) (by simpa [Nat.mul_succ] using hy)
  | case2 a =>
    intro j x y hx hy
    cases j with
    | zero =>
      cases hx
      cases hy
      rfl
    | succ j => simp [pad, Nat.mul_succ] at hx
  | case3 =>
    intro j x y hx
    simp [pad] at hx

theorem getElem?_pad {l : List T} {i : Nat} {x : T} (h : l[i]? = some x) : (pad l)[i]? = some x := by
  unfold pad
  split
  · rw [List.getElem?_append_left (List.getElem?_eq_some_iff.mp h).1, h]
  · exact h

/-- Every position of a level has its sibling in the padded level. -/
theorem exists_sibling {l : List T} {i : Nat} (h : i < l.length) :
    ∃ s, (pad l)[if i % 2 = 0 then i + 1 else i - 1]? = some s := by
  have hlen : (pad l).length = l.length + l.length % 2 := by
    unfold pad
    split
    · rename_i hodd
      rcases l with _ | ⟨a, l⟩
      · cases h
      · rw [List.length_append, List.getLast?_eq_some_getLast (List.cons_ne_nil a l), hodd]
        rfl
    · omega
  refine ⟨_, List.getElem?_eq_getElem ?_⟩
  rw [hlen]
  split <;> omega

/-- The siblings read off the levels lead from a position to the root, over pairs of the
    levels only. -/
theorem audit_climbs : ∀ (f : Nat) {l : List T} {i : Nat} {x r : T}, l.length ≤ f + 1 → l[i]? = some x →
    loop node f l = some r → ∃ path, audit node f l i = some path ∧ climb node x path = r ∧
      ∀ p ∈ climbed node x path, p ∈ combinedF node f l := by
  intro f
  induction f with
  | zero =>
    intro l i x r hlen hx h
    rcases l with _ | ⟨a, _ | ⟨b, l⟩⟩
    · cases h
    · cases h
      obtain rfl : i = 0 := by
        have := (List.getElem?_eq_some_iff.mp hx).1
        simp at this
        exact this
      cases hx
      exact ⟨[], rfl, rfl, by simp [climbed]⟩
    · simp at hlen
  | succ f ih =>
    intro l i x r hlen hx h
    have hi := (List.getElem?_eq_some_iff.mp hx).1
    rcases l with _ | ⟨a, _ | ⟨b, l⟩⟩
    · cases h
    · cases h
      obtain rfl : i = 0 := by simpa using hi
      cases hx
      exact ⟨[], rfl, rfl, by simp [climbed]⟩
    · have hcombined : combinedF node (f + 1) (a :: b :: l) = pairs (a :: b :: l) ++ combinedF node f (level node (a :: b :: l)) :=
        rfl
      generalize hl : a :: b :: l = m at *
      have hshort : (level node m).length ≤ f + 1 := by
        rw [level_length]
        have : 2 ≤ m.length := by rw [← hl]; simp
        omega
      have hloop : loop node f (level node m) = some r := by
        rw [← hl] at h ⊢
        exact h
      have haudit : audit node (f + 1) m i =
          match (pad m)[if i % 2 = 0 then i + 1 else i - 1]?, audit node f (level node (pad m)) (i / 2) with
          | some s, some path => some ((s, i % 2 == 0) :: path)
          | _, _ => none := by
        rw [← hl]
        rfl
      obtain ⟨s, hs⟩ := exists_sibling hi
      -- the pair above the position, in its order
      have hpair : (pairs m)[i / 2]? = some (if i % 2 == 0 then (x, s) else (s, x)) := by
        have hx' := getElem?_pad hx
        by_cases heven : i % 2 = 0
        · rw [if_pos heven] at hs
          rw [if_pos (by simp [heven])]
          exact getElem?_pairs m (i / 2) (by rwa [show 2 * (i / 2) = i by omega])
            (by rwa [show 2 * (i / 2) + 1 = i + 1 by omega])
        · rw [if_neg heven] at hs
          rw [if_neg (by simp [heven])]
          exact getElem?_pairs m (i / 2) (by rwa [show 2 * (i / 2) = i - 1 by omega])
            (by rwa [show 2 * (i / 2) + 1 = i by omega])
      have hup : (level node m)[i / 2]? = some (if i % 2 == 0 then node x s else node s x) := by
        rw [level_eq_map, List.getElem?_map, hpair]
        cases i % 2 == 0 <;> rfl
      obtain ⟨path, hpath, hclimb, hmem⟩ := ih hshort hup hloop
      refine ⟨(s, i % 2 == 0) :: path, ?_, ?_, ?_⟩
      · rw [haudit, hs, level_pad, hpath]
      · rw [climb_cons]
        exact hclimb
      · intro p hp
        rw [hcombined]
        rcases List.mem_cons.mp hp with rfl | hp
        · exact List.mem_append_left _ (List.mem_of_getElem? hpair)
        · refine List.mem_append_right _ (hmem p ?_)
          cases hside : i % 2 == 0 <;> (rw [hside] at hp; exact hp)

end Scytale.Lib.Merkle
