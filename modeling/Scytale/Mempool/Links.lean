/-
  Scytale.Mempool.Links — what the operations do to the dependency maps of the pool
  (crates/scytale-mempool/src/pool.rs).

  A row of `childToParents` or `parentToChildren` is a set; together they are two relations
  that are kept by hand.
  - `Cut`: a set of entries that left, with their rows; `confirmOne` leaves the row of a
    confirmed parent where it is, `removeOne` takes it.
  - `removal_cut`: a removal with its descendants, an eviction: what left is closed under the
    links from parents to children.
  - `countAncestors_spec`: the walk over the ancestors counts all that the links lead to.
  - `commit_up` / `commit_down`: a commit links the entry with its parents.
-/
import Scytale.Lib.Links
import Scytale.Lib.Worklist
import Scytale.Mempool.Coherence

namespace Scytale

open Lib

/-- `p` is in `child_to_parents[c]`. -/
def Mempool.Up (m : Mempool) (c p : Hash256) : Prop := Table.Linked m.childToParents c p

/-- `c` is in `parent_to_children[p]`. -/
def Mempool.Down (m : Mempool) (p c : Hash256) : Prop := Table.Linked m.parentToChildren p c

namespace Mempool

/-- The entries of `gone` have left, and the rows of the children of `forgotten`. -/
structure Cut (m m' : Mempool) (gone forgotten : Hash256 → Prop) : Prop where
  entries : ∀ (id : Hash256) (e : MempoolEntry), m'.entries[id]? = some e ↔ ¬gone id ∧ m.entries[id]? = some e
  up : ∀ c p, m'.Up c p ↔ ¬gone c ∧ m.Up c p
  down : ∀ p c, m'.Down p c ↔ ¬forgotten p ∧ m.Down p c ∧ ¬(gone c ∧ m.Up c p)

namespace Cut

variable {m m' m'' : Mempool} {gone forgotten gone' forgotten' : Hash256 → Prop}

theorem refl (m : Mempool) : Cut m m (fun _ => False) fun _ => False :=
  ⟨fun _ _ => by simp, fun _ _ => by simp, fun _ _ => by simp⟩

theorem trans (h : Cut m m' gone forgotten) (h' : Cut m' m'' gone' forgotten') :
    Cut m m'' (fun id => gone id ∨ gone' id) fun id => forgotten id ∨ forgotten' id := by
  refine ⟨fun id e => ?_, fun c p => ?_, fun p c => ?_⟩
  · rw [h'.entries, h.entries]
    tauto
  · rw [h'.up, h.up]
    tauto
  · rw [h'.down, h.down, h.up]
    tauto

theorem congr (h : Cut m m' gone forgotten) (hg : ∀ id, gone id ↔ gone' id) (hf : ∀ id, forgotten id ↔ forgotten' id) :
    Cut m m' gone' forgotten' := by
  obtain rfl : gone = gone' := funext fun id => propext (hg id)
  obtain rfl : forgotten = forgotten' := funext fun id => propext (hf id)
  exact h

end Cut

variable {m : Mempool}

/-! ## One entry -/

theorem unlinkParents_entries (m : Mempool) (txid : Hash256) : (m.unlinkParents txid).entries = m.entries := by
  unfold unlinkParents
  split <;> rfl

theorem dropEntry_links (m : Mempool) (txid : Hash256) :
    (m.dropEntry txid).childToParents = m.childToParents ∧ (m.dropEntry txid).parentToChildren = m.parentToChildren := by
  unfold dropEntry
  split <;> exact ⟨rfl, rfl⟩

theorem unlinkParents_up (m : Mempool) (txid c p : Hash256) : (m.unlinkParents txid).Up c p ↔ c ≠ txid ∧ m.Up c p := by
  unfold unlinkParents Up
  split
  · rename_i hnone
    refine ⟨fun h => ⟨?_, h⟩, fun h => h.2⟩
    rintro rfl
    obtain ⟨s, hs, -⟩ := h
    rw [hnone] at hs
    cases hs
  · exact Table.linked_erase _ _ _ _

/-- The loop over the parents takes the identifier out of one row after the other. -/
theorem unlinkParents_rows {txid : Hash256} {parents : TxidSet} (h : m.childToParents[txid]? = some parents) :
    (m.unlinkParents txid).parentToChildren =
      parents.toList.foldl (fun t p => Table.unlinkRow txid t p.1) m.parentToChildren := by
  unfold unlinkParents
  rw [h]
  show List.foldl _ _ _ = _
  congr 1
  funext t p
  unfold Table.unlinkRow
  cases t[p.1]? <;> rfl

theorem unlinkParents_down (m : Mempool) (txid p c : Hash256) :
    (m.unlinkParents txid).Down p c ↔ m.Down p c ∧ ¬(c = txid ∧ m.Up txid p) := by
  cases h : m.childToParents[txid]? with
  | none =>
    have hno : ¬m.Up txid p := by
      rintro ⟨s, hs, -⟩
      rw [h] at hs
      cases hs
    have hsame : m.unlinkParents txid = m := by
      unfold unlinkParents
      rw [h]
    simp [hsame, hno]
  | some parents =>
    have hmem : p ∈ parents.toList.map (·.1) ↔ m.Up txid p := by
      rw [Table.mem_keys_iff, Up, Table.Linked, h]
      simp
    rw [Down, unlinkParents_rows h, Table.linked_unlink, hmem, Down]

theorem confirmOne_cut (m : Mempool) (txid : Hash256) : Cut m (m.confirmOne txid) (· = txid) fun _ => False := by
  obtain ⟨hup, hdown⟩ := dropEntry_links m txid
  refine ⟨fun id e => ?_, fun c p => ?_, fun p c => ?_⟩
  · rw [confirmOne, unlinkParents_entries, get_dropEntry]
  · rw [confirmOne, unlinkParents_up, Up, Up, hup]
  · rw [confirmOne, unlinkParents_down, Down, Down, Up, Up, hup, hdown]
    constructor
    · rintro ⟨h1, h2⟩
      exact ⟨id, h1, fun ⟨hc, hl⟩ => h2 ⟨hc, hc ▸ hl⟩⟩
    · rintro ⟨-, h1, h2⟩
      exact ⟨h1, fun ⟨hc, hl⟩ => h2 ⟨hc, hc.symm ▸ hl⟩⟩

theorem removeOne_cut (m : Mempool) (txid : Hash256) : Cut m (m.removeOne txid) (· = txid) (· = txid) := by
  have h := confirmOne_cut m txid
  refine ⟨h.entries, h.up, fun p c => ?_⟩
  have hrow : (m.removeOne txid).Down p c ↔ p ≠ txid ∧ (m.confirmOne txid).Down p c := Table.linked_erase _ _ _ _
  rw [hrow, h.down]
  tauto

/-- A loop over a list of identifiers. -/
theorem foldl_cut {f : Mempool → Hash256 → Mempool} (forgets : Prop)
    (hf : ∀ m txid, Cut m (f m txid) (· = txid) fun id => forgets ∧ id = txid) (ids : List Hash256) : ∀ m : Mempool,
    Cut m (ids.foldl f m) (· ∈ ids) fun id => forgets ∧ id ∈ ids := by
  induction ids with
  | nil => intro m; exact (Cut.refl m).congr (by simp) (by simp)
  | cons txid ids ih =>
    intro m
    refine ((hf m txid).trans (ih (f m txid))).congr (fun id => by simp) fun id => ?_
    rw [List.mem_cons]
    tauto

/-! ## A removal with its descendants -/

/-- The children of one row, as the removal pushes them on its stack. -/
def childrenOf (links : Table Hash256 TxidSet) (id : Hash256) : List Hash256 :=
  match links[id]? with
  | none => []
  | some children => (children.toList.map (·.1)).reverse

theorem mem_childrenOf {links : Table Hash256 TxidSet} {p c : Hash256} :
    c ∈ childrenOf links p ↔ Table.Linked links p c := by
  unfold childrenOf Table.Linked
  cases links[p]? with
  | none => simp
  | some s => simp only [List.mem_reverse, Table.mem_keys_iff, Option.some.injEq, exists_eq_left']

/-- The work list of a removal is a walk along the rows. -/
theorem collectDescendants_eq (links : Table Hash256 TxidSet) : ∀ (f : Nat) (queue toRemove : List Hash256),
    collectDescendants links f queue toRemove = Worklist.visit (childrenOf links) f queue toRemove := by
  intro f
  induction f with
  | zero => intro queue toRemove; rfl
  | succ f ih =>
    intro queue toRemove
    cases queue with
    | nil => rfl
    | cons id queue =>
      unfold collectDescendants Worklist.visit childrenOf
      split
      · exact ih _ _
      · rw [ih]
        cases links[id]? <;> rfl

theorem work_childrenOf (links : Table Hash256 TxidSet) :
    Worklist.work (childrenOf links) (links.toList.map (·.1)) [] = linkCount links := by
  have hrow : ∀ p ∈ links.toList, (childrenOf links p.1).length = p.2.toList.length := by
    rintro ⟨k, s⟩ hp
    have hs : links[k]? = some s := Table.mem_toList.mp hp
    simp only [childrenOf, hs, List.length_reverse, List.length_map]
  simp only [Worklist.work, linkCount, List.not_mem_nil, not_false_eq_true, decide_true, List.filter_true, List.map_map]
  exact congrArg List.sum (List.map_congr_left hrow)

/-- What is collected contains what it starts from and the children of all it contains. -/
theorem collectDescendants_closed (links : Table Hash256 TxidSet) (start : List Hash256) :
    let collected := collectDescendants links (linkCount links + start.length + 1) start []
    (∀ id ∈ start, id ∈ collected) ∧ ∀ p ∈ collected, ∀ c, Table.Linked links p c → c ∈ collected := by
  intro collected
  have hkeys : ∀ id, childrenOf links id ≠ [] → id ∈ links.toList.map (·.1) := by
    intro id hne
    unfold childrenOf at hne
    cases hs : links[id]? with
    | none => exact absurd (by rw [hs]) hne
    | some s => exact List.mem_map.mpr ⟨(id, s), Table.mem_toList.mpr hs, rfl⟩
  have hfuel : start.length + Worklist.work (childrenOf links) (links.toList.map (·.1)) [] <
      linkCount links + start.length + 1 := by
    rw [work_childrenOf]
    omega
  obtain ⟨-, htodo, hclosed⟩ := Worklist.visit_closed hkeys _ start [] hfuel fun _ h => absurd h List.not_mem_nil
  have heq : collected = Worklist.visit (childrenOf links) (linkCount links + start.length + 1) start [] :=
    collectDescendants_eq links _ start []
  rw [heq]
  exact ⟨htodo, fun p hp c hc => hclosed p hp c (mem_childrenOf.mpr hc)⟩

/-- And nothing beyond that. -/
theorem collectDescendants_within {links : Table Hash256 TxidSet} {P : Hash256 → Prop}
    (hnext : ∀ p c, P p → Table.Linked links p c → P c) (f : Nat) {start : List Hash256} (hstart : ∀ id ∈ start, P id) :
    ∀ id ∈ collectDescendants links f start [], P id := by
  rw [collectDescendants_eq]
  exact Worklist.visit_within (fun p hp c hc => hnext p c hp (mem_childrenOf.mp hc)) f start [] hstart
    fun _ h => absurd h List.not_mem_nil

/-! ## The walk over the ancestors -/

theorem get_visited (fresh : List Hash256) : ∀ (visited : TxidSet) (k : Hash256),
    (fresh.foldl (fun v g => v.insert g ()) visited)[k]? = some () ↔ k ∈ fresh ∨ visited[k]? = some () := by
  induction fresh with
  | nil => intro visited k; simp
  | cons g fresh ih =>
    intro visited k
    rw [List.foldl_cons, ih, Table.get_insert, List.mem_cons]
    by_cases h : g = k
    · simp [h]
    · have : ¬k = g := fun e => h e.symm
      simp [h, this]

theorem childrenOf_nodup (links : Table Hash256 TxidSet) (id : Hash256) : (childrenOf links id).Nodup := by
  unfold childrenOf
  split
  · exact List.nodup_nil
  · rename_i row _
    exact List.nodup_reverse.mpr (Table.nodup_keys row)

/-- The links of one entry that lead to what was not seen yet. -/
def unvisited (links : Table Hash256 TxidSet) (visited : TxidSet) (id : Hash256) : List Hash256 :=
  match links[id]? with
  | none => []
  | some parents => (parents.toList.map (·.1)).filter fun g => !visited.contains g

theorem unvisited_reverse (links : Table Hash256 TxidSet) {visited : TxidSet} {seen : List Hash256}
    (h : ∀ k, visited[k]? = some () ↔ k ∈ seen) (id : Hash256) :
    (unvisited links visited id).reverse = Worklist.unseen (childrenOf links) seen id := by
  unfold unvisited Worklist.unseen childrenOf
  cases links[id]? with
  | none => rfl
  | some parents =>
    have hsame : ∀ g, (!visited.contains g) = decide (g ∉ seen) := by
      intro g
      rw [Bool.eq_iff_iff, Bool.not_eq_true', Table.not_contains_iff, decide_eq_true_eq, ← h g]
      cases visited[g]? <;> simp
    simp only [hsame, List.filter_reverse]

/-- It counts what it has seen. -/
theorem countAncestors_eq (links : Table Hash256 TxidSet) : ∀ (f : Nat) (pending : List Hash256) (visited : TxidSet)
    (seen : List Hash256), (∀ k, visited[k]? = some () ↔ k ∈ seen) →
      countAncestors links f pending visited seen.length = (Worklist.flood (childrenOf links) f pending seen).length := by
  intro f
  induction f with
  | zero => intro pending visited seen _; rfl
  | succ f ih =>
    intro pending visited seen h
    cases pending with
    | nil => rfl
    | cons parent pending =>
      have hstep : countAncestors links (f + 1) (parent :: pending) visited seen.length =
          countAncestors links f ((unvisited links visited parent).reverse ++ pending)
            ((unvisited links visited parent).foldl (fun v g => v.insert g ()) visited)
            (seen.length + (unvisited links visited parent).length) := rfl
      have hcount : seen.length + (unvisited links visited parent).length =
          (Worklist.unseen (childrenOf links) seen parent ++ seen).length := by
        rw [← unvisited_reverse links h, List.length_append, List.length_reverse, Nat.add_comm]
      rw [hstep, hcount, unvisited_reverse links h, ih, Worklist.flood]
      intro k
      rw [get_visited, h, List.mem_append, ← unvisited_reverse links h, List.mem_reverse]

/-- All that a link leads to. -/
def linkTargets (links : Table Hash256 TxidSet) : List Hash256 := (links.toList.flatMap fun r => r.2.toList.map (·.1)).dedup

theorem linkTargets_length_le (links : Table Hash256 TxidSet) : (linkTargets links).length ≤ linkCount links := by
  have hle := (List.dedup_sublist (links.toList.flatMap fun r => r.2.toList.map (·.1))).length_le
  simpa [linkTargets, linkCount, List.length_flatMap] using hle

theorem mem_linkTargets {links : Table Hash256 TxidSet} {c p : Hash256} (h : p ∈ childrenOf links c) : p ∈ linkTargets links := by
  obtain ⟨row, hrow, hp⟩ := mem_childrenOf.mp h
  exact List.mem_dedup.mpr (List.mem_flatMap.mpr ⟨(c, row), Table.mem_toList.mpr hrow, Table.mem_keys_iff.mpr hp⟩)

/-- The least set with the parents that is closed under the links is what the walk counts. -/
theorem countAncestors_spec (links : Table Hash256 TxidSet) (parents : TxidSet) : ∃ seen : List Hash256, seen.Nodup ∧
    (∀ p, parents[p]? = some () → p ∈ seen) ∧ (∀ c ∈ seen, ∀ p, Table.Linked links c p → p ∈ seen) ∧
      (∀ P : Hash256 → Prop, (∀ p, parents[p]? = some () → P p) → (∀ c p, P c → Table.Linked links c p → P p) →
        ∀ a ∈ seen, P a) ∧
      countAncestors links (parents.size + linkCount links + 1) (parents.toList.map (·.1)).reverse parents parents.size =
        seen.length := by
  have hkeys : ∀ p, parents[p]? = some () ↔ p ∈ parents.toList.map (·.1) := fun p => Table.mem_keys_iff.symm
  have hsize : parents.size = (parents.toList.map (·.1)).length := by
    rw [List.length_map, Std.ExtTreeMap.length_toList]
  have hfuel : (parents.toList.map (·.1)).reverse.length +
      ((linkTargets links).filter (· ∉ parents.toList.map (·.1))).length < parents.size + linkCount links + 1 := by
    have hle := List.length_filter_le (· ∉ parents.toList.map (·.1)) (linkTargets links)
    have hle' := linkTargets_length_le links
    rw [List.length_reverse, ← hsize]
    omega
  obtain ⟨hkeeps, hclosed⟩ := Worklist.flood_closed (childrenOf_nodup links) (List.nodup_dedup _) (fun c p => mem_linkTargets)
    _ (parents.toList.map (·.1)).reverse (parents.toList.map (·.1)) hfuel fun p hp => .inl (List.mem_reverse.mpr hp)
  refine ⟨_, Worklist.flood_nodup (childrenOf_nodup links) _ _ _ (Table.nodup_keys parents), fun p hp => hkeeps p ((hkeys p).mp hp),
    fun c hc p hp => hclosed c hc p (mem_childrenOf.mpr hp), fun P hparents hlinks => ?_, ?_⟩
  · exact Worklist.flood_within (fun c hc p hp => hlinks c p hc (mem_childrenOf.mp hp)) _ _ _
      (fun p hp => hparents p ((hkeys p).mpr (List.mem_reverse.mp hp))) fun p hp => hparents p ((hkeys p).mpr hp)
  · rw [← countAncestors_eq links _ _ parents _ hkeys, ← hsize]

/-- The entries of `gone` have left with all their rows, and with all their children. -/
structure Removed (m m' : Mempool) (gone : Hash256 → Prop) : Prop where
  cut : Cut m m' gone gone
  closed : ∀ p c, gone p → m.Down p c → gone c

namespace Removed

variable {m' m'' : Mempool} {gone gone' : Hash256 → Prop}

theorem refl (m : Mempool) : Removed m m fun _ => False := ⟨Cut.refl m, fun _ _ h => h.elim⟩

theorem trans (h : Removed m m' gone) (h' : Removed m' m'' gone') : Removed m m'' fun id => gone id ∨ gone' id := by
  refine ⟨h.cut.trans h'.cut, fun p c hp hc => ?_⟩
  by_cases hg : gone p
  · exact .inl (h.closed p c hg hc)
  · -- a row the first removal left is whole but for what the first removal took
    by_cases hgc : gone c
    · exact .inl hgc
    · exact .inr (h'.closed p c (hp.resolve_left hg) ((h.cut.down p c).mpr ⟨hg, hc, fun h => hgc h.1⟩))

end Removed

/-- A removal takes the least closed set with the transaction. -/
theorem removal_cut (m : Mempool) (txid : Hash256) :
    ∃ gone, Removed m (m.removeTransactionAndDescendants txid).1 gone ∧ gone txid ∧
      ∀ P : Hash256 → Prop, P txid → (∀ p c, P p → m.Down p c → P c) → ∀ id, gone id → P id := by
  obtain ⟨hself, hclosed⟩ := collectDescendants_closed m.parentToChildren [txid]
  refine ⟨(· ∈ (m.removeTransactionAndDescendants txid).2), ⟨?_, fun p c hp hc => hclosed p hp c hc⟩,
    hself txid List.mem_cons_self, fun P hP hdown => collectDescendants_within hdown _ (by simpa using hP)⟩
  have hcut := foldl_cut True (fun m txid => (removeOne_cut m txid).congr (fun _ => Iff.rfl) (by simp))
    (m.removeTransactionAndDescendants txid).2 m
  exact hcut.congr (fun _ => Iff.rfl) (by simp)

/-- A list of removals, each with its descendants. -/
theorem removals_cut (ids : List Hash256) : ∀ m : Mempool, ∃ gone,
    Removed m (ids.foldl (fun m txid => (m.removeTransactionAndDescendants txid).1) m) gone ∧ ∀ id ∈ ids, gone id := by
  induction ids with
  | nil => intro m; exact ⟨_, Removed.refl m, by simp⟩
  | cons txid ids ih =>
    intro m
    obtain ⟨gone, hr, hself, -⟩ := removal_cut m txid
    obtain ⟨gone', hr', hall⟩ := ih (m.removeTransactionAndDescendants txid).1
    refine ⟨_, hr.trans hr', fun id hid => ?_⟩
    rcases List.mem_cons.mp hid with rfl | hid
    · exact .inl hself
    · exact .inr (hall id hid)

theorem makeRoom_cut (entry : MempoolEntry) (f : Nat) : ∀ m : Mempool, ∃ gone, Removed m (makeRoom entry f m).1 gone := by
  induction f with
  | zero => intro m; exact ⟨_, Removed.refl m⟩
  | succ f ih =>
    intro m
    unfold makeRoom
    split
    · split
      · exact ⟨_, Removed.refl m⟩
      · rename_i lowest u hlow
        split
        · obtain ⟨gone, hr, -⟩ := removal_cut m lowest.txid
          obtain ⟨gone', hr'⟩ := ih (m.removeTransactionAndDescendants lowest.txid).1
          exact ⟨_, hr.trans hr'⟩
        · exact ⟨_, Removed.refl m⟩
    · exact ⟨_, Removed.refl m⟩

/-! ## An admission -/

section
variable {H : Hasher} {tx : Transaction} {utxos : UtxoSet} {verifier : AuthorizationVerifier} {now : UInt64}

/-- The entry is new where room was made for it. -/
theorem Admits.fresh_after {entry : MempoolEntry} {parents : TxidSet} {m₁ : Mempool} {gone : Hash256 → Prop}
    (h : Admits H m tx utxos verifier now entry parents) (hr : Removed m m₁ gone) : m₁.entries[entry.txid]? = none :=
  h.fresh_of_within fun id e he => ((hr.cut.entries id e).mp he).2

/-- What leaving entries keep, and a commit where entries have left, an admission keeps. -/
theorem admission_cut {P : Mempool → Prop} (h : P m) (hcut : ∀ {m₁ gone}, Removed m m₁ gone → P m₁)
    (hcommit : ∀ {entry parents m₁ gone}, Admits H m tx utxos verifier now entry parents →
      makeRoom entry (m.priorityIndex.size + 1) m = (m₁, .ok ()) → Removed m m₁ gone → P m₁ →
        P (m₁.commitEntry entry parents)) : P (m.admitTransaction H tx utxos verifier now).1 := by
  refine admission_keeps h (fun entry => ?_) fun {entry parents m₁} hadm hroom hk => ?_
  · obtain ⟨gone, hr⟩ := makeRoom_cut entry (m.priorityIndex.size + 1) m
    exact hcut hr
  · obtain ⟨gone, hr⟩ := makeRoom_cut entry (m.priorityIndex.size + 1) m
    rw [hroom] at hr
    exact hcommit hadm hroom hr hk

end

/-! ## A connected block -/

/-- The pool when the confirmed transactions are out. -/
def confirmAll (H : Hasher) (m : Mempool) (block : Block) : Mempool :=
  (block.transactions.tail.map fun t => t.txid H).foldl confirmOne m

/-- The identifiers a block confirms. -/
def Confirms (H : Hasher) (block : Block) (id : Hash256) : Prop := ∃ t ∈ block.transactions.tail, t.txid H = id

theorem confirmAll_cut (H : Hasher) (m : Mempool) (block : Block) :
    Cut m (m.confirmAll H block) (Confirms H block) fun _ => False := by
  have hcut := foldl_cut False (fun m txid => (confirmOne_cut m txid).congr (fun _ => Iff.rfl) (by simp))
    (block.transactions.tail.map fun t => t.txid H) m
  exact hcut.congr (fun id => List.mem_map) (by simp)

/-- One of its inputs is neither unspent nor an output of an entry. -/
def Broken (m : Mempool) (utxos : UtxoSet) (id : Hash256) : Prop :=
  ∃ e, m.entries[id]? = some e ∧ e.transaction.inputs.any (m.brokenInput utxos) = true

/-- After the confirmed transactions those with a broken input leave, with their descendants. -/
theorem onBlockConnected_cut (H : Hasher) (m : Mempool) (block : Block) (utxos : UtxoSet) : ∃ gone,
    Removed (m.confirmAll H block) (m.onBlockConnected H block utxos) gone ∧
      ∀ id, (m.confirmAll H block).Broken utxos id → gone id := by
  obtain ⟨gone, hr, hall⟩ := removals_cut (((m.confirmAll H block).entries.toList.filter fun p =>
    p.2.transaction.inputs.any ((m.confirmAll H block).brokenInput utxos)).map (·.1)) (m.confirmAll H block)
  refine ⟨gone, hr, fun id ⟨e, he, hb⟩ => hall id ?_⟩
  exact List.mem_map.mpr ⟨(id, e), List.mem_filter.mpr ⟨Table.mem_toList.mpr he, hb⟩, rfl⟩

/-! ## A commit -/

theorem commit_down (m : Mempool) (entry : MempoolEntry) (parents : TxidSet) (p c : Hash256) :
    (m.commitEntry entry parents).Down p c ↔ m.Down p c ∨ (c = entry.txid ∧ parents[p]? = some ()) := by
  rw [← Table.mem_keys_iff]
  exact Table.linked_link entry.txid parents.toList m.parentToChildren p c

/-- A commit links no other entry with anything. -/
theorem commit_up_imp {entry : MempoolEntry} {parents : TxidSet} {c p : Hash256}
    (h : (m.commitEntry entry parents).Up c p) : m.Up c p ∨ (c = entry.txid ∧ parents[p]? = some ()) := by
  unfold Up commitEntry at h
  simp only at h
  split at h
  · exact .inl h
  · rcases (Table.linked_insert _ _ _ _ _).mp h with h | ⟨-, h⟩
    · exact .inr h
    · exact .inl h

theorem commit_up {entry : MempoolEntry} (hnew : ∀ p, ¬m.Up entry.txid p) (parents : TxidSet) (c p : Hash256) :
    (m.commitEntry entry parents).Up c p ↔ m.Up c p ∨ (c = entry.txid ∧ parents[p]? = some ()) := by
  unfold Up commitEntry
  simp only
  cases hempty : parents.isEmpty with
  | true =>
    have hnone : parents[p]? = none := by
      rw [Std.ExtTreeMap.isEmpty_iff.mp hempty, Table.get_empty]
    simp [hnone]
  | false =>
    simp only [Bool.false_eq_true, if_false]
    rw [Table.linked_insert]
    by_cases hc : c = entry.txid
    · have hno : ¬Table.Linked m.childToParents c p := hc ▸ hnew p
      simp only [hc, true_and, ne_eq, not_true, false_and, or_false]
      rw [← hc]
      exact (or_iff_right hno).symm
    · simp only [hc, false_and, ne_eq, not_false_eq_true, true_and, false_or, or_false]

end Mempool

end Scytale
