/-
  Scytale.Core.UtxoRoot — what the root of a set of unspent outputs commits to.

  A root is computed from rows, an outpoint with its output each, in an order.
  - `computeUtxoMerkleRoot_eq`: the program's loop computes the library's root.
  - `sort_listed`: sorting the entries in whatever order they come gives the set's own.
  - `rows_extend`: rows of one root extend one another, whatever rows they are.
  - `utxo_root_binds`: sets of one root hold the same outputs at the same outpoints.
-/
import Scytale.Lib.Merkle
import Scytale.Core.Utxo
import Scytale.Core.TxIdentity
import Scytale.Blake3

namespace Scytale

open Lib

/-- The order `sort_by` is given: by txid, then index. -/
def OutPoint.le (a b : OutPoint) : Prop := (compare a b).isLE = true

instance : DecidableRel OutPoint.le := fun a b => inferInstanceAs (Decidable ((compare a b).isLE = true))

theorem OutPoint.le_antisymm {a b : OutPoint} (h : OutPoint.le a b) (h' : OutPoint.le b a) : a = b := by
  rw [OutPoint.le, Std.OrientedOrd.eq_swap, Ordering.isLE_swap] at h'
  exact (Table.compare_eq_eq a b).mp (Ordering.eq_eq_of_isLE_of_isGE h h')

theorem OutPoint.le_total (a b : OutPoint) : OutPoint.le a b ∨ OutPoint.le b a := by
  rw [OutPoint.le, OutPoint.le, Std.OrientedOrd.eq_swap (a := b), Ordering.isLE_swap]
  cases compare a b <;> simp

namespace UtxoSet

section
variable (H : Hasher)

/-- What a leaf is the digest of. -/
def leafString (o : OutPoint) (out : TxOut) : Bytes :=
  utxoLeafTag ++ o.txid.bytes ++ u32le o.index ++ u64le out.value ++ out.lockingCondition

/-- Two nodes of one level combined. -/
def combine (a b : Hash256) : Hash256 := H (a.bytes ++ b.bytes)

def leaves (rows : List (OutPoint × TxOut)) : List Hash256 := rows.map fun p => computeUtxoLeaf H p.1 p.2

def leafStrings (rows : List (OutPoint × TxOut)) : List Bytes := rows.map fun p => leafString p.1 p.2

/-- What the inner nodes over the rows are digests of. -/
def nodeStrings (rows : List (OutPoint × TxOut)) : List Bytes :=
  (Merkle.combined (combine H) (leaves H rows)).map fun p => p.1.bytes ++ p.2.bytes

/-- The rows of a set, by txid, then index. -/
def rows (s : UtxoSet) : List (OutPoint × TxOut) := s.entries.toList.map fun p => (p.1, p.2.output)

end

variable {H : Hasher}

theorem merkleLevel_eq (l : List Hash256) : merkleLevel H l = Merkle.level (combine H) l := by
  fun_induction merkleLevel H l with
  | case1 a b l ih => rw [ih]; rfl
  | case2 a => rfl
  | case3 => rfl

theorem merkleLoop_eq : ∀ (f : Nat) (l : List Hash256),
    merkleLoop H f l = (Merkle.loop (combine H) f l).getD Hash256.zero := by
  intro f
  induction f with
  | zero => intro l; rcases l with _ | ⟨a, _ | ⟨b, l⟩⟩ <;> rfl
  | succ f ih =>
    intro l
    rcases l with _ | ⟨a, _ | ⟨b, l⟩⟩
    · rfl
    · rfl
    · show merkleLoop H f (merkleLevel H (a :: b :: l)) = _
      rw [merkleLevel_eq, ih]
      rfl

theorem computeUtxoMerkleRoot_eq (l : List Hash256) :
    computeUtxoMerkleRoot H l = (Merkle.root (combine H) l).getD Hash256.zero := merkleLoop_eq l.length l

theorem computeUtxoRoot_eq (s : UtxoSet) : s.computeUtxoRoot H = computeUtxoMerkleRoot H (leaves H s.rows) := by
  rw [computeUtxoRoot, leaves, rows, List.map_map]
  rfl

theorem leafString_inj {p q : OutPoint × TxOut} (h : leafString p.1 p.2 = leafString q.1 q.2) : p = q := by
  obtain ⟨⟨txid, index⟩, value, lock⟩ := p
  obtain ⟨⟨txid', index'⟩, value', lock'⟩ := q
  simp only [leafString, List.append_assoc] at h
  have h := List.append_cancel_left h
  obtain ⟨h1, h⟩ := List.append_inj h (by rw [txid.size, txid'.size])
  obtain ⟨h2, h⟩ := List.append_inj h (by simp)
  obtain ⟨h3, h4⟩ := List.append_inj h (by simp)
  rw [Hash256.ext_bytes h1, u32le_inj h2, u64le_inj h3, h4]

/-! ## The order of the rows -/

/-- A permutation of a table's rows that comes by outpoint is the list of its rows. -/
theorem eq_toList_of_perm {m : Table OutPoint UtxoEntry} {rows : List (OutPoint × UtxoEntry)} (hperm : m.toList.Perm rows)
    (hsorted : rows.Pairwise fun a b => OutPoint.le a.1 b.1) : m.toList = rows := by
  refine hperm.eq_of_pairwise ?_ (List.Pairwise.imp ?_ (Std.ExtTreeMap.ordered_keys_toList (t := m))) hsorted
  · rintro ⟨a, e⟩ ⟨b, e'⟩ ha hb hab hba
    obtain rfl : a = b := OutPoint.le_antisymm hab hba
    have hb := hperm.mem_iff.mpr hb
    rw [Table.mem_toList] at ha hb
    rw [ha] at hb
    cases hb
    rfl
  · intro a b hab
    rw [OutPoint.le, hab]
    rfl

theorem pairwise_sort (entries : List (OutPoint × UtxoEntry)) :
    (entries.insertionSort fun a b => OutPoint.le a.1 b.1).Pairwise fun a b => OutPoint.le a.1 b.1 := by
  have : Std.Total (fun a b : OutPoint × UtxoEntry => OutPoint.le a.1 b.1) := ⟨fun a b => OutPoint.le_total a.1 b.1⟩
  have : IsTrans (OutPoint × UtxoEntry) (fun a b => OutPoint.le a.1 b.1) := ⟨fun a b c => Std.TransCmp.isLE_trans⟩
  exact List.pairwise_insertionSort _ _

/-- However the entries of a set are listed, sorting them lists them as the set does. -/
theorem sort_listed {s : UtxoSet} {entries : List (OutPoint × UtxoEntry)} (h : entries.Perm s.entries.toList) :
    (entries.insertionSort fun a b => OutPoint.le a.1 b.1) = s.entries.toList :=
  (eq_toList_of_perm (h.symm.trans (List.perm_insertionSort _ _).symm) (pairwise_sort entries)).symm

/-! ## Binding -/

/-- What is assumed of the digest on some strings, leaves and inner nodes: no collision, no
    leaf that is an inner node, and no zero. -/
structure Apart (H : Hasher) (leafs nodes : List Bytes) : Prop where
  collisionFree : CollisionFree H (leafs ++ nodes)
  apart : ∀ a ∈ leafs, ∀ b ∈ nodes, H a ≠ H b
  nonzero : ∀ a ∈ leafs ++ nodes, H a ≠ Hash256.zero

instance (H : Hasher) (leafs nodes : List Bytes) : Decidable (Apart H leafs nodes) :=
  decidable_of_iff (CollisionFree H (leafs ++ nodes) ∧ (∀ a ∈ leafs, ∀ b ∈ nodes, H a ≠ H b) ∧
      ∀ a ∈ leafs ++ nodes, H a ≠ Hash256.zero)
    ⟨fun ⟨h1, h2, h3⟩ => ⟨h1, h2, h3⟩, fun h => ⟨h.collisionFree, h.apart, h.nonzero⟩⟩

/-- The same of the strings of two roots. -/
structure Separated (H : Hasher) (r r' : List (OutPoint × TxOut)) : Prop where
  collisionFree : CollisionFree H ((leafStrings r ++ leafStrings r') ++ (nodeStrings H r ++ nodeStrings H r'))
  apart : ∀ a ∈ leafStrings r ++ leafStrings r', ∀ b ∈ nodeStrings H r ++ nodeStrings H r', H a ≠ H b
  nonzero : ∀ a ∈ (leafStrings r ++ leafStrings r') ++ (nodeStrings H r ++ nodeStrings H r'), H a ≠ Hash256.zero

instance (H : Hasher) (r r' : List (OutPoint × TxOut)) : Decidable (Separated H r r') :=
  decidable_of_iff
    (CollisionFree H ((leafStrings r ++ leafStrings r') ++ (nodeStrings H r ++ nodeStrings H r')) ∧
      (∀ a ∈ leafStrings r ++ leafStrings r', ∀ b ∈ nodeStrings H r ++ nodeStrings H r', H a ≠ H b) ∧
      ∀ a ∈ (leafStrings r ++ leafStrings r') ++ (nodeStrings H r ++ nodeStrings H r'), H a ≠ Hash256.zero)
    ⟨fun ⟨h1, h2, h3⟩ => ⟨h1, h2, h3⟩, fun h => ⟨h.collisionFree, h.apart, h.nonzero⟩⟩

namespace Apart

variable {leafs nodes : List Bytes}

theorem mono (h : Apart H leafs nodes) {leafs' nodes' : List Bytes} (hl : ∀ a ∈ leafs', a ∈ leafs)
    (hn : ∀ a ∈ nodes', a ∈ nodes) : Apart H leafs' nodes' := by
  have hmem : ∀ a ∈ leafs' ++ nodes', a ∈ leafs ++ nodes := by
    intro a ha
    rcases List.mem_append.mp ha with ha | ha
    · exact List.mem_append_left _ (hl a ha)
    · exact List.mem_append_right _ (hn a ha)
  exact ⟨fun x hx y hy => h.collisionFree x (hmem x hx) y (hmem y hy),
    fun a ha b hb => h.apart a (hl a ha) b (hn b hb), fun a ha => h.nonzero a (hmem a ha)⟩

/-- Rows whose strings are among the leaves' have different leaves. -/
theorem leaf_inj (h : Apart H leafs nodes) {R : Set (OutPoint × TxOut)} (hR : ∀ p ∈ R, leafString p.1 p.2 ∈ leafs) :
    Set.InjOn (fun p : OutPoint × TxOut => computeUtxoLeaf H p.1 p.2) R := by
  intro p hp q hq hpq
  exact leafString_inj
    (h.collisionFree _ (List.mem_append_left _ (hR p hp)) _ (List.mem_append_left _ (hR q hq)) hpq)

/-- Pairs whose strings are among the nodes' give different nodes. -/
theorem pair_inj (h : Apart H leafs nodes) {P : Set (Hash256 × Hash256)}
    (hP : ∀ p ∈ P, p.1.bytes ++ p.2.bytes ∈ nodes) :
    Set.InjOn (fun p : Hash256 × Hash256 => combine H p.1 p.2) P := by
  intro p hp q hq hpq
  have hbytes := h.collisionFree _ (List.mem_append_right _ (hP p hp)) _ (List.mem_append_right _ (hP q hq)) hpq
  obtain ⟨h1, h2⟩ := List.append_inj hbytes (by rw [p.1.size, q.1.size])
  exact Prod.ext (Hash256.ext_bytes h1) (Hash256.ext_bytes h2)

end Apart

theorem mem_leafStrings {r : List (OutPoint × TxOut)} {p : OutPoint × TxOut} (h : p ∈ r) :
    leafString p.1 p.2 ∈ leafStrings r := List.mem_map.mpr ⟨p, h, rfl⟩

theorem mem_nodeStrings {r : List (OutPoint × TxOut)} {p : Hash256 × Hash256}
    (h : p ∈ Merkle.combined (combine H) (leaves H r)) : p.1.bytes ++ p.2.bytes ∈ nodeStrings H r :=
  List.mem_map.mpr ⟨p, h, rfl⟩

/-- A leaf of the rows is the digest of one of their strings. -/
theorem exists_leafString {r : List (OutPoint × TxOut)} {x : Hash256} (h : x ∈ leaves H r) :
    ∃ a ∈ leafStrings r, x = H a := by
  obtain ⟨q, hq, rfl⟩ := List.mem_map.mp h
  exact ⟨_, mem_leafStrings hq, rfl⟩

namespace Separated

variable {r r' : List (OutPoint × TxOut)}

theorem toApart (h : Separated H r r') :
    Apart H (leafStrings r ++ leafStrings r') (nodeStrings H r ++ nodeStrings H r') :=
  ⟨h.collisionFree, h.apart, h.nonzero⟩

theorem symm (h : Separated H r r') : Separated H r' r := by
  have h' := @Apart.mono _ _ _ h.toApart (leafStrings r' ++ leafStrings r) (nodeStrings H r' ++ nodeStrings H r)
    (by simp only [List.mem_append]; tauto) (by simp only [List.mem_append]; tauto)
  exact ⟨h'.collisionFree, h'.apart, h'.nonzero⟩

theorem leaf_inj (h : Separated H r r') : Set.InjOn (fun p : OutPoint × TxOut => computeUtxoLeaf H p.1 p.2)
    {p | p ∈ r ∨ p ∈ r'} :=
  h.toApart.leaf_inj fun _ hp => List.mem_append.mpr (hp.imp mem_leafStrings mem_leafStrings)

theorem pair_inj (h : Separated H r r') : Set.InjOn (fun p : Hash256 × Hash256 => combine H p.1 p.2)
    {p | p ∈ Merkle.combined (combine H) (leaves H r) ∨ p ∈ Merkle.combined (combine H) (leaves H r')} :=
  h.toApart.pair_inj fun _ hp => List.mem_append.mpr (hp.imp mem_nodeStrings mem_nodeStrings)

theorem leaf_not_node (h : Separated H r r') (x : Hash256) (hx : x ∈ leaves H r ∨ x ∈ leaves H r')
    (p : Hash256 × Hash256) (hp : p ∈ Merkle.combined (combine H) (leaves H r) ∨
      p ∈ Merkle.combined (combine H) (leaves H r')) : x ≠ combine H p.1 p.2 := by
  have hstring : ∃ a ∈ leafStrings r ++ leafStrings r', x = H a := by
    rcases hx with hx | hx
    · exact (exists_leafString hx).imp fun a ha => ⟨List.mem_append_left _ ha.1, ha.2⟩
    · exact (exists_leafString hx).imp fun a ha => ⟨List.mem_append_right _ ha.1, ha.2⟩
  obtain ⟨a, ha, rfl⟩ := hstring
  exact h.apart a ha _ (List.mem_append.mpr (hp.imp mem_nodeStrings mem_nodeStrings))

/-- The root of some rows is a digest. -/
theorem root_ne_zero (h : Separated H r r') {d : Hash256} (hd : Merkle.root (combine H) (leaves H r) = some d) :
    d ≠ Hash256.zero := by
  obtain ⟨t, rfl, hinner, hleaves⟩ := Merkle.exists_tree hd
  cases t with
  | leaf x =>
    obtain ⟨q, hq, rfl⟩ := List.mem_map.mp (hleaves.mem x List.mem_cons_self)
    exact h.nonzero _ (List.mem_append_left _ (List.mem_append_left _ (List.mem_map.mpr ⟨q, hq, rfl⟩)))
  | node a b =>
    have hp := hinner _ List.mem_cons_self
    exact h.nonzero _ (List.mem_append_right _ (List.mem_append_left _ (List.mem_map.mpr ⟨_, hp, rfl⟩)))

end Separated

/-- Rows of one root extend one another. -/
theorem rows_extend {r r' : List (OutPoint × TxOut)} (h : Separated H r r')
    (heq : computeUtxoMerkleRoot H (leaves H r) = computeUtxoMerkleRoot H (leaves H r')) :
    Merkle.Extends r r' ∨ Merkle.Extends r' r := by
  rw [computeUtxoMerkleRoot_eq, computeUtxoMerkleRoot_eq] at heq
  cases hr : Merkle.root (combine H) (leaves H r) with
  | none =>
    cases hr' : Merkle.root (combine H) (leaves H r') with
    | none =>
      rw [Merkle.root_eq_none.mp hr |> List.map_eq_nil_iff.mp, Merkle.root_eq_none.mp hr' |> List.map_eq_nil_iff.mp]
      exact .inl (.refl _)
    | some d =>
      rw [hr, hr'] at heq
      exact absurd heq.symm (h.symm.root_ne_zero hr')
  | some d =>
    cases hr' : Merkle.root (combine H) (leaves H r') with
    | none =>
      rw [hr, hr'] at heq
      exact absurd heq (h.root_ne_zero hr)
    | some d' =>
      rw [hr, hr'] at heq
      have hd : d = d' := heq
      subst hd
      rcases Merkle.extends_of_root_eq hr hr' h.pair_inj h.leaf_not_node with he | he
      · exact .inl (he.of_map h.leaf_inj)
      · exact .inr (he.of_map (h.leaf_inj.mono fun _ hp => hp.symm))

theorem nodup_rows (s : UtxoSet) : (s.rows.map (·.1)).Nodup := by
  rw [rows, List.map_map]
  exact Table.nodup_keys s.entries

/-- The output at an outpoint is the row's. -/
theorem mem_rows {s : UtxoSet} {o : OutPoint} {out : TxOut} :
    (o, out) ∈ s.rows ↔ s.entries[o]?.map UtxoEntry.output = some out := by
  rw [rows, List.mem_map, Option.map_eq_some_iff]
  constructor
  · rintro ⟨⟨o', e⟩, hp, heq⟩
    obtain ⟨rfl, rfl⟩ := Prod.mk.inj heq
    exact ⟨e, Table.mem_toList.mp hp, rfl⟩
  · rintro ⟨e, he, rfl⟩
    exact ⟨(o, e), Table.mem_toList.mpr he, rfl⟩

theorem rows_eq_of_root {s t : UtxoSet} (h : Separated H s.rows t.rows)
    (heq : s.computeUtxoRoot H = t.computeUtxoRoot H) : s.rows = t.rows := by
  rw [computeUtxoRoot_eq, computeUtxoRoot_eq] at heq
  rcases rows_extend h heq with he | he
  · exact he.eq_of_nodup (List.Nodup.of_map _ t.nodup_rows)
  · exact (he.eq_of_nodup (List.Nodup.of_map _ s.nodup_rows)).symm

/-- Sets of one root, of any sizes, hold the same outputs at the same outpoints. -/
theorem utxo_root_binds {s t : UtxoSet} (h : Separated H s.rows t.rows)
    (heq : s.computeUtxoRoot H = t.computeUtxoRoot H) (o : OutPoint) :
    s.entries[o]?.map UtxoEntry.output = t.entries[o]?.map UtxoEntry.output := by
  have hrows : s.rows = t.rows := rows_eq_of_root h heq
  refine Option.ext fun out => ?_
  rw [← mem_rows, ← mem_rows, hrows]

/-- Two sets of three outputs that differ in heights and coinbase flags only. -/
def threeOutputs (height : UInt64) (cb : Bool) : UtxoSet :=
  ⟨((∅ : Table OutPoint UtxoEntry).insert ⟨Hash256.zero, 0⟩ ⟨⟨700, [0x51]⟩, height, cb⟩
    |>.insert ⟨Hash256.zero, 1⟩ ⟨⟨800, [0x51]⟩, height, cb⟩) |>.insert ⟨Hash256.zero, 2⟩ ⟨⟨900, []⟩, height, cb⟩⟩

set_option maxRecDepth 10000 in
theorem utxo_root_binds_three :
    let H := Blake3.digest
    (threeOutputs 1 true).computeUtxoRoot H = (threeOutputs 2 false).computeUtxoRoot H ∧
      (threeOutputs 1 true).entries[(⟨Hash256.zero, 2⟩ : OutPoint)]?.map UtxoEntry.output =
        (threeOutputs 2 false).entries[(⟨Hash256.zero, 2⟩ : OutPoint)]?.map UtxoEntry.output :=
  ⟨by decide +kernel, utxo_root_binds (H := Blake3.digest) ⟨by decide +kernel, by decide +kernel, by decide +kernel⟩
    (by decide +kernel) _⟩

end UtxoSet

end Scytale
