/-
  Scytale.Mempool.Selection — what the pool offers for a block
  (crates/scytale-mempool/src/pool.rs).

  One pass over the priority index, from the highest key down. An entry is passed over when a
  parent recorded for it is not among those taken so far, or the bytes run out; the pass does
  not come back to it.
  - `Chosen`: what is taken at every point of the pass, `Chosen.step`: what one key does to it.
  - `selection_chosen`: at the end, with everything the pool answers.
  - `whole_pool_selected_iff`: with room for all, all are taken exactly when every recorded
    parent is an entry with a higher key than its child.
-/
import Scytale.Mempool.Cascade
import Scytale.Mempool.Closure
import Scytale.Mempool.Readmission

namespace Scytale

open Lib

variable {H : Hasher} {m : Mempool} {maxBytes : Nat}

namespace Mempool

/-- The keys in the order the pass sees them. -/
def descending (m : Mempool) : List PriorityKey := (m.priorityIndex.toList.map (·.1)).reverse

/-- Every entry of the list comes after the parents recorded for it. -/
def ParentsFirst (m : Mempool) (es : List MempoolEntry) : Prop :=
  ∀ before e after, es = before ++ e :: after → ∀ p, m.Up e.txid p → p ∈ before.map MempoolEntry.txid

/-- Every parent recorded for an entry is an entry with a higher key. -/
def ParentsAbove (m : Mempool) : Prop := ∀ (c p : Hash256) (e : MempoolEntry), m.entries[c]? = some e → m.Up c p →
  ∃ ep, m.entries[p]? = some ep ∧ compare e.priorityKey ep.priorityKey = .lt

/-- The entries taken when the keys of `seen` have been seen. -/
structure Chosen (m : Mempool) (maxBytes : Nat) (seen : List PriorityKey) (s : Selection) (es : List MempoolEntry) : Prop where
  txs : s.txs = es.map MempoolEntry.transaction
  entries : ∀ e ∈ es, m.entries[e.txid]? = some e
  order : (es.map MempoolEntry.priorityKey).Sublist seen
  included : ∀ id, s.included[id]? = some () ↔ id ∈ es.map MempoolEntry.txid
  bytes : s.bytes = min (es.map MempoolEntry.sizeBytes).sum (2 ^ 64 - 1)
  within : s.bytes ≤ maxBytes
  fees : s.fees.toNat = min (es.map fun e => e.fee.toNat).sum (2 ^ 64 - 1)
  parents : m.ParentsFirst es

/-! ## The order of the pass -/

theorem mem_descending {key : PriorityKey} : key ∈ m.descending ↔ m.priorityIndex[key]? = some () := by
  rw [descending, List.mem_reverse, Table.mem_keys_iff]

theorem descending_sorted (m : Mempool) : m.descending.Pairwise fun a b => compare b a = .lt := by
  rw [descending, List.pairwise_reverse]
  exact List.pairwise_map.mpr Std.ExtTreeMap.ordered_keys_toList

theorem descending_nodup (m : Mempool) : m.descending.Nodup := by
  apply (descending_sorted m).imp
  rintro a b h rfl
  rw [Std.compare_self] at h
  cases h

/-! ## One key -/

theorem ParentsFirst.snoc {es : List MempoolEntry} {e : MempoolEntry} (h : m.ParentsFirst es)
    (hready : ∀ p, m.Up e.txid p → p ∈ es.map MempoolEntry.txid) : m.ParentsFirst (es ++ [e]) := by
  intro before x after heq p hp
  rcases List.append_eq_append_iff.mp heq with ⟨l, hbefore, hlast⟩ | ⟨l, hes, hlast⟩
  · -- `x` is the last one, or beyond the end
    rcases List.cons_eq_append_iff.mp hlast with ⟨rfl, hnil⟩ | ⟨l', rfl, hnil⟩
    · obtain ⟨rfl, -⟩ := List.cons.inj hnil
      rw [hbefore, List.append_nil]
      exact hready p hp
    · simp at hnil
  · cases l with
    | nil =>
      obtain ⟨rfl, -⟩ := List.cons.inj hlast
      rw [List.append_nil] at hes
      rw [← hes]
      exact hready p hp
    | cons y l =>
      obtain ⟨rfl, -⟩ := List.cons.inj hlast
      exact h before x l hes p hp

namespace Chosen

variable {seen : List PriorityKey} {s : Selection} {es : List MempoolEntry} {e : MempoolEntry}

theorem start (m : Mempool) (maxBytes : Nat) : Chosen m maxBytes [] ⟨[], 0, 0, ∅⟩ [] where
  txs := rfl
  entries := by simp
  order := List.Sublist.refl []
  included := by simp
  bytes := by simp
  within := Nat.zero_le maxBytes
  fees := by simp
  parents := by simp [ParentsFirst]

/-- The parents recorded for it are taken. -/
def Ready (m : Mempool) (es : List MempoolEntry) (e : MempoolEntry) : Prop :=
  ∀ p, m.Up e.txid p → p ∈ es.map MempoolEntry.txid

/-- There are bytes left for it. -/
def Fits (maxBytes : Nat) (s : Selection) (e : MempoolEntry) : Prop := addBytes s.bytes e.sizeBytes ≤ maxBytes

theorem ready_iff (h : Chosen m maxBytes seen s es) (e : MempoolEntry) :
    ((m.childToParents[e.txid]?.map fun parents => parents.toList.all fun p => s.included.contains p.1).getD true) = true ↔
      Ready m es e := by
  unfold Ready Up Table.Linked
  cases m.childToParents[e.txid]? with
  | none => simp
  | some parents =>
    simp only [Option.map_some, Option.getD_some, List.all_eq_true, Option.some.injEq, exists_eq_left']
    constructor
    · intro hall p hp
      have hin := hall (p, ()) (Table.mem_toList.mpr hp)
      obtain ⟨⟨⟩, hin⟩ := (Table.contains_iff _ _).mp hin
      exact (h.included p).mp hin
    · intro hall p hp
      exact (Table.contains_iff _ _).mpr ⟨(), (h.included p.1).mpr (hall p.1 (Table.mem_toList.mp hp))⟩

open Classical in
/-- What a key does. -/
theorem selectOne_eq (h : Chosen m maxBytes seen s es) (he : m.entries[e.txid]? = some e) :
    m.selectOne maxBytes s e.priorityKey = if Ready m es e ∧ Fits maxBytes s e then
      ⟨s.txs ++ [e.transaction], UInt64.ofNat (min (s.fees.toNat + e.fee.toNat) (2 ^ 64 - 1)), addBytes s.bytes e.sizeBytes,
        s.included.insert e.txid ()⟩
    else s := by
  unfold selectOne
  simp only [show e.priorityKey.txid = e.txid from rfl, he]
  apply if_congr _ rfl rfl
  rw [Bool.and_eq_true, h.ready_iff e]
  exact and_congr_right fun _ => decide_eq_true_iff

theorem take (h : Chosen m maxBytes seen s es) (he : m.entries[e.txid]? = some e) (hready : Ready m es e)
    (hfits : Fits maxBytes s e) :
    Chosen m maxBytes (seen ++ [e.priorityKey]) (m.selectOne maxBytes s e.priorityKey) (es ++ [e]) := by
  rw [h.selectOne_eq he, if_pos ⟨hready, hfits⟩]
  constructor
  · simp [h.txs]
  · intro x hx
    rcases List.mem_append.mp hx with hx | hx
    · exact h.entries x hx
    · rw [List.mem_singleton.mp hx]
      exact he
  · rw [List.map_append]
    exact h.order.append (List.Sublist.refl _)
  · intro id
    rw [Table.get_insert, List.map_append, List.mem_append, ← h.included]
    by_cases hid : e.txid = id
    · simp [hid]
    · have hne : id ≠ e.txid := fun heq => hid heq.symm
      simp [hid, hne]
  · show addBytes s.bytes e.sizeBytes = _
    rw [addBytes, h.bytes, List.map_append, List.sum_append, List.map_singleton, List.sum_singleton]
    omega
  · exact hfits
  · have hlt : min (s.fees.toNat + e.fee.toNat) (2 ^ 64 - 1) < 2 ^ 64 := by omega
    show (UInt64.ofNat (min (s.fees.toNat + e.fee.toNat) (2 ^ 64 - 1))).toNat = _
    rw [UInt64.toNat_ofNat', Nat.mod_eq_of_lt hlt, h.fees, List.map_append, List.sum_append, List.map_singleton,
      List.sum_singleton]
    omega
  · exact h.parents.snoc hready

theorem pass (h : Chosen m maxBytes seen s es) (he : m.entries[e.txid]? = some e)
    (hnot : ¬(Ready m es e ∧ Fits maxBytes s e)) :
    Chosen m maxBytes (seen ++ [e.priorityKey]) (m.selectOne maxBytes s e.priorityKey) es := by
  rw [h.selectOne_eq he, if_neg hnot]
  exact { h with order := h.order.trans (List.sublist_append_left _ _) }

/-- The next key: its entry is taken, or passed over. -/
theorem step (h : Chosen m maxBytes seen s es) (he : m.entries[e.txid]? = some e) :
    ∃ es', Chosen m maxBytes (seen ++ [e.priorityKey]) (m.selectOne maxBytes s e.priorityKey) es' ∧
      (Ready m es e → Fits maxBytes s e → es' = es ++ [e]) := by
  by_cases hgo : Ready m es e ∧ Fits maxBytes s e
  · exact ⟨es ++ [e], h.take he hgo.1 hgo.2, fun _ _ => rfl⟩
  · exact ⟨es, h.pass he hgo, fun hready hfits => absurd ⟨hready, hfits⟩ hgo⟩

/-! ## The pass -/

theorem run (hm : IndexedPool H m) (keys : List PriorityKey) : ∀ {seen : List PriorityKey} {s : Selection} {es : List MempoolEntry},
    Chosen m maxBytes seen s es → (∀ key ∈ keys, m.priorityIndex[key]? = some ()) →
      ∃ es', Chosen m maxBytes (seen ++ keys) (keys.foldl (m.selectOne maxBytes) s) es' := by
  induction keys with
  | nil => intro seen s es h _; exact ⟨es, by rw [List.append_nil]; exact h⟩
  | cons key keys ih =>
    intro seen s es h hkeys
    obtain ⟨e, he, rfl⟩ := key_entry hm (hkeys key List.mem_cons_self)
    obtain ⟨es₁, h₁, -⟩ := h.step he
    obtain ⟨es', h'⟩ := ih h₁ fun key hkey => hkeys key (List.mem_cons_of_mem _ hkey)
    exact ⟨es', by rw [List.append_cons]; exact h'⟩

/-- No entry is taken twice. -/
theorem nodup (h : Chosen m maxBytes seen s es) (hnd : seen.Nodup) : es.Nodup :=
  List.Nodup.of_map MempoolEntry.priorityKey (hnd.sublist h.order)

/-- Those taken have no more than all. -/
theorem sum_le (f : MempoolEntry → Nat) (hentries : ∀ e ∈ es, m.entries[e.txid]? = some e) (hnd : es.Nodup) :
    (es.map f).sum ≤ Table.sumBy f m.entries := by
  have hpairs : (es.map fun e => (e.txid, e)).Nodup := hnd.map fun a b heq => congrArg Prod.snd heq
  have hle := Table.sum_le_sumBy f hpairs fun p hp => by
    obtain ⟨e, he, rfl⟩ := List.mem_map.mp hp
    exact hentries e he
  rw [List.map_map] at hle
  exact hle

/-- The one before has the higher key. -/
theorem higher_of_before (h : Chosen m maxBytes m.descending s es) {before after : List MempoolEntry}
    (hes : es = before ++ e :: after) : ∀ ep ∈ before, compare e.priorityKey ep.priorityKey = .lt := by
  have hsorted := (descending_sorted m).sublist h.order
  rw [hes, List.map_append, List.map_cons] at hsorted
  intro ep hep
  exact (List.pairwise_append.mp hsorted).2.2 _ (List.mem_map_of_mem hep) _ List.mem_cons_self

end Chosen

/-- The pass answers with a list of entries and their fees. -/
theorem selection_chosen (hm : IndexedPool H m) (maxBytes : Nat) : ∃ s es, Chosen m maxBytes m.descending s es ∧
    m.selectTransactionsForBlock maxBytes = (s.txs, s.fees) := by
  obtain ⟨es, h⟩ := (Chosen.start m maxBytes).run hm m.descending fun key hkey => mem_descending.mp hkey
  exact ⟨_, es, h, rfl⟩

/-! ## The whole pool -/

theorem mem_values {e : MempoolEntry} (hm : IndexedPool H m) :
    e ∈ m.entries.toList.map (·.2) ↔ m.entries[e.txid]? = some e := by
  constructor
  · intro h
    obtain ⟨⟨id, e⟩, hp, rfl⟩ := List.mem_map.mp h
    have he : m.entries[id]? = some e := Table.mem_toList.mp hp
    rw [(hm.keyed id e he).1]
    exact he
  · intro h
    exact List.mem_map.mpr ⟨(e.txid, e), Table.mem_toList.mpr h, rfl⟩

theorem values_nodup (hm : IndexedPool H m) : (m.entries.toList.map (·.2)).Nodup := by
  apply (Table.nodup_toList m.entries).map_on
  rintro ⟨id, e⟩ hp ⟨id', e'⟩ hp' rfl
  have hid := (hm.keyed id e (Table.mem_toList.mp hp)).1
  have hid' := (hm.keyed id' e (Table.mem_toList.mp hp')).1
  rw [← hid, ← hid']

namespace Chosen

variable {s : Selection} {es : List MempoolEntry}

section
variable {seen keys : List PriorityKey} {e : MempoolEntry}

/-- When all keys seen are taken, the parents are, for they stand above. -/
theorem ready_of_above (hm : IndexedPool H m) (habove : m.ParentsAbove) (hall : es.map MempoolEntry.priorityKey = seen)
    (hseen : seen ++ e.priorityKey :: keys = m.descending) (he : m.entries[e.txid]? = some e) : Ready m es e := by
  have hsorted := descending_sorted m
  rw [← hseen] at hsorted
  intro p hp
  obtain ⟨ep, hep, habove⟩ := habove e.txid p e he hp
  have hid : ep.txid = p := (hm.keyed p ep hep).1
  have hmem : ep.priorityKey ∈ seen ++ e.priorityKey :: keys := by
    rw [hseen]
    exact mem_descending.mpr ((hm.priority _).mpr ⟨p, ep, hep, rfl⟩)
  rcases List.mem_append.mp hmem with hmem | hmem
  · rw [← hall] at hmem
    obtain ⟨x, hx, hkey⟩ := List.mem_map.mp hmem
    have hxid : x.txid = ep.txid := congrArg PriorityKey.txid hkey
    exact List.mem_map.mpr ⟨x, hx, hxid.trans hid⟩
  · -- what is still to come is lower
    rcases List.mem_cons.mp hmem with heq | hlater
    · rw [heq, Std.compare_self] at habove
      cases habove
    · have hlower := (List.pairwise_cons.mp (List.pairwise_append.mp hsorted).2.1).1 _ hlater
      rw [Std.OrientedCmp.gt_of_lt hlower] at habove
      cases habove

theorem fits_of_room (h : Chosen m maxBytes seen s es) (hroom : Table.sumBy MempoolEntry.sizeBytes m.entries ≤ maxBytes)
    (hall : es.map MempoolEntry.priorityKey = seen) (hseen : seen ++ e.priorityKey :: keys = m.descending)
    (he : m.entries[e.txid]? = some e) : Fits maxBytes s e := by
  have hentries : ∀ x ∈ es ++ [e], m.entries[x.txid]? = some x := by
    intro x hx
    rcases List.mem_append.mp hx with hx | hx
    · exact h.entries x hx
    · rw [List.mem_singleton.mp hx]
      exact he
  have hkeys : ((es ++ [e]).map MempoolEntry.priorityKey).Nodup := by
    have hnd := descending_nodup m
    rw [← hseen, List.append_cons] at hnd
    rw [List.map_append, hall]
    exact hnd.sublist (List.sublist_append_left _ _)
  have hle := sum_le MempoolEntry.sizeBytes hentries (List.Nodup.of_map _ hkeys)
  rw [List.map_append, List.sum_append, List.map_singleton, List.sum_singleton] at hle
  have hbytes := h.bytes
  unfold Fits addBytes
  omega

end

/-- Where every parent stands above and there is room for all, the pass takes what it sees. -/
theorem takes_all (hm : IndexedPool H m) (habove : m.ParentsAbove)
    (hroom : Table.sumBy MempoolEntry.sizeBytes m.entries ≤ maxBytes) (keys : List PriorityKey) :
    ∀ {seen : List PriorityKey} {s : Selection} {es : List MempoolEntry}, Chosen m maxBytes seen s es →
      es.map MempoolEntry.priorityKey = seen → seen ++ keys = m.descending →
        ∃ es', Chosen m maxBytes m.descending (keys.foldl (m.selectOne maxBytes) s) es' ∧
          es'.map MempoolEntry.priorityKey = m.descending := by
  induction keys with
  | nil =>
    intro seen s es h hall hseen
    rw [List.append_nil] at hseen
    exact ⟨es, hseen ▸ h, hseen ▸ hall⟩
  | cons key keys ih =>
    intro seen s es h hall hseen
    have hkey : m.priorityIndex[key]? = some () := mem_descending.mp (by rw [← hseen]; simp)
    obtain ⟨e, he, rfl⟩ := key_entry hm hkey
    have he : m.entries[e.txid]? = some e := he
    obtain ⟨es', h', htaken⟩ := h.step he
    refine ih h' ?_ (by rw [← hseen, List.append_assoc, List.singleton_append])
    rw [htaken (ready_of_above hm habove hall hseen he) (h.fits_of_room hroom hall hseen he), List.map_append, hall]
    rfl

/-- All keys taken are all entries taken. -/
theorem perm (h : Chosen m maxBytes m.descending s es) (hm : IndexedPool H m)
    (hall : es.map MempoolEntry.priorityKey = m.descending) : s.txs.Perm m.transactions := by
  have hperm : es.Perm (m.entries.toList.map (·.2)) := by
    refine (List.perm_ext_iff_of_nodup (h.nodup (descending_nodup m)) (values_nodup hm)).mpr fun e => ?_
    rw [mem_values hm]
    refine ⟨h.entries e, fun he => ?_⟩
    have hkey : e.priorityKey ∈ es.map MempoolEntry.priorityKey := by
      rw [hall]
      exact mem_descending.mpr ((hm.priority _).mpr ⟨e.txid, e, he, rfl⟩)
    obtain ⟨x, hx, hkey⟩ := List.mem_map.mp hkey
    have hid : x.txid = e.txid := congrArg PriorityKey.txid hkey
    have hin := h.entries x hx
    rw [hid, he] at hin
    cases hin
    exact hx
  have htxs := hperm.map MempoolEntry.transaction
  rw [List.map_map] at htxs
  rw [h.txs]
  exact htxs

/-- An entry whose transaction is offered is one of those taken. -/
theorem mem_of_offered (h : Chosen m maxBytes m.descending s es) (hm : IndexedPool H m) {id : Hash256} {e : MempoolEntry}
    (he : m.entries[id]? = some e) (ht : e.transaction ∈ s.txs) : e ∈ es := by
  rw [h.txs] at ht
  obtain ⟨x, hx, htx⟩ := List.mem_map.mp ht
  have hin := h.entries x hx
  have hid : x.txid = id := by
    rw [← (hm.keyed _ x hin).2, htx, (hm.keyed id e he).2]
  rw [hid, he] at hin
  cases hin
  exact hx

end Chosen

end Mempool

/-- In every run, for every size of at least the pool's: each entry's transaction is offered
    exactly once if and only if every parent recorded for an entry is an entry with a higher
    key. -/
theorem whole_pool_selected_iff (h : PoolRun H PoolOp.Fits m) (hmax : m.totalBytes ≤ maxBytes) :
    (m.selectTransactionsForBlock maxBytes).1.Perm m.transactions ↔ m.ParentsAbove := by
  have hm := h.indexed
  constructor
  · intro hperm c p e he hup
    obtain ⟨s, es, hchosen, hsel⟩ := Mempool.selection_chosen hm maxBytes
    rw [hsel] at hperm
    have hoffered : e.transaction ∈ s.txs := hperm.mem_iff.mpr (Mempool.mem_transactions.mpr ⟨c, e, he, rfl⟩)
    obtain ⟨before, after, hes⟩ := List.append_of_mem (hchosen.mem_of_offered hm he hoffered)
    have hid : e.txid = c := (hm.keyed c e he).1
    obtain ⟨ep, hep, rfl⟩ := List.mem_map.mp (hchosen.parents before e after hes p (hid.symm ▸ hup))
    refine ⟨ep, hchosen.entries ep ?_, hchosen.higher_of_before hes ep hep⟩
    rw [hes]
    exact List.mem_append_left _ hep
  · intro habove
    have hroom : Table.sumBy MempoolEntry.sizeBytes m.entries ≤ maxBytes := h.coherent.bytes ▸ hmax
    obtain ⟨es, hchosen, hall⟩ := (Mempool.Chosen.start m maxBytes).takes_all hm habove hroom m.descending rfl rfl
    exact hchosen.perm hm hall

/-! ### A parent and a child that pays less, or more -/

/-- It leaves a fee of 500, on the parent's output. -/
def thriftyChildTx (H : Hasher) : Transaction := payOn ⟨parentTx.txid H, 0⟩ 8500

/-- The parent and the child that pays less. -/
def thriftyPool (H : Hasher) : Mempool := (parentPool H).step H (admitFunded (thriftyChildTx H))

theorem parentPool_fits : PoolRun Blake3.digest PoolOp.Fits (parentPool Blake3.digest) :=
  .step (.empty 10 10000 0) (admitFunded parentTx) (by unfold admitFunded PoolOp.Fits; decide +kernel)

set_option maxRecDepth 10000 in
theorem whole_pool_selected_thrifty :
    ((thriftyPool Blake3.digest).selectTransactionsForBlock 1000).1.Perm (thriftyPool Blake3.digest).transactions ↔
      (thriftyPool Blake3.digest).ParentsAbove :=
  whole_pool_selected_iff (.step parentPool_fits (admitFunded (thriftyChildTx Blake3.digest))
    (by unfold admitFunded PoolOp.Fits; decide +kernel)) (by decide +kernel)

set_option maxRecDepth 10000 in
/-- The child that pays more comes before its parent in the pass: with room for both, and every
    input unspent or an output of an entry, the parent alone is offered. -/
theorem richer_child_left_out : PoolRun Blake3.digest PoolOp.Fits (familyPool Blake3.digest 10) ∧
    InputsClosed ⟨familyPool Blake3.digest 10, funding⟩ ∧ (familyPool Blake3.digest 10).totalBytes ≤ 1000 ∧
      ¬((familyPool Blake3.digest 10).selectTransactionsForBlock 1000).1.Perm (familyPool Blake3.digest 10).transactions := by
  refine ⟨.step parentPool_fits (admitFunded (childTx Blake3.digest)) (by unfold admitFunded PoolOp.Fits; decide +kernel),
    fun id e he i hi => ?_, by decide +kernel, fun h => ?_⟩
  · have hall : ∀ p ∈ (familyPool Blake3.digest 10).entries.toList, ∀ i ∈ p.2.transaction.inputs,
        funding.entries.contains i.previousOutput = true ∨ (i.previousOutput.txid ≠ p.1 ∧
          ∃ q ∈ (familyPool Blake3.digest 10).entries.toList, q.1 = i.previousOutput.txid ∧
            i.previousOutput.index.toNat < q.2.transaction.outputs.length) := by decide +kernel
    apply (hall (id, e) (Table.mem_toList.mpr he) i hi).imp
    · exact (Table.contains_iff _ _).mp
    · rintro ⟨hne, q, hq, hid, hlt⟩
      refine ⟨hne, q.2, ?_, hlt⟩
      rw [← hid]
      exact Table.mem_toList.mp hq
  · have hlen := h.length_eq
    revert hlen
    decide +kernel

end Scytale
