/-
  Scytale.Mempool.Readmission — what the pool takes back after a reorganisation
  (crates/scytale-mempool/src/pool.rs).

  `on_reorg` goes through the returned transactions once, in the order they are given. A
  transaction is refused when an output it spends is neither unspent nor, by then, in the pool.
  - `admit_of_room`: the pool of an admission that needs no room.
  - `Pass`: with room for all that is returned, what stays true while it is taken back.
  - `readmitted_iff`: a transaction that can be taken back is in the pool afterwards exactly
    when it is listed after what it needs.
-/
import Scytale.Lib.OnePass
import Scytale.Mempool.Dependencies

namespace Scytale

open Lib

def Transaction.previousOutputs (t : Transaction) : List OutPoint := t.inputs.map TxIn.previousOutput

/-- The transactions an entry of which must be in the pool: those of the inputs that are not
    unspent in the set. -/
def Transaction.needs (u : UtxoSet) (t : Transaction) : List Hash256 :=
  (t.previousOutputs.filter fun o => !u.entries.contains o).map OutPoint.txid

/-- What an outpoint resolves to when those that are not unspent are outputs of the given
    transactions. -/
def resolveWith (u : UtxoSet) (parent : OutPoint → Transaction) (o : OutPoint) : Option UtxoEntry :=
  match u.entries[o]? with
  | some entry => some entry
  | none => (parent o).outputs[o.index.toNat]?.map fun out => ⟨out, 0, false⟩

/-- No two of the transactions have one identifier. -/
def DistinctIds (H : Hasher) (txs : List Transaction) : Prop := ∀ a ∈ txs, ∀ b ∈ txs, a.txid H = b.txid H → a = b

instance (H : Hasher) (txs : List Transaction) : Decidable (DistinctIds H txs) :=
  inferInstanceAs (Decidable (∀ a ∈ txs, ∀ b ∈ txs, a.txid H = b.txid H → a = b))

def Mempool.transactions (m : Mempool) : List Transaction := m.entries.toList.map fun p => p.2.transaction

def Mempool.ids (m : Mempool) : List Hash256 := m.entries.toList.map (·.1)

/-- The transaction itself is in the pool. -/
def Mempool.Holds (H : Hasher) (m : Mempool) (t : Transaction) : Prop :=
  ∃ e, m.entries[t.txid H]? = some e ∧ e.transaction = t

/-- A lost transaction that the pool can take back: each input is unspent in the set or an
    output of another such transaction, the verifier accepts it, its fee reaches the floor, and
    no entry of the pool, nor another lost transaction, spends what it spends. -/
inductive Readmissible (H : Hasher) (verifier : AuthorizationVerifier) (now : UInt64) (m : Mempool) (u : UtxoSet)
    (lost : Transaction → Prop) : Transaction → Prop where
  | intro {t : Transaction} {es : List UtxoEntry} {entry : MempoolEntry} (parent : OutPoint → Transaction)
      (isLost : lost t) (resolves : t.previousOutputs.map (resolveWith u parent) = es.map some)
      (acceptable : Mempool.Acceptable H verifier now m.minFeeRate t es entry)
      (free : ∀ (id : Hash256) (e : MempoolEntry), m.entries[id]? = some e → ∀ o ∈ t.previousOutputs, o ∈ e.spends → id = t.txid H)
      (alone : ∀ t', lost t' → ∀ o ∈ t.previousOutputs, o ∈ t'.previousOutputs → t'.txid H = t.txid H)
      (named : ∀ o ∈ t.previousOutputs, u.entries[o]? = none → (parent o).txid H = o.txid)
      (parents : ∀ o ∈ t.previousOutputs, u.entries[o]? = none → Readmissible H verifier now m u lost (parent o)) :
      Readmissible H verifier now m u lost t

/-- Among the returned there is one with this identifier that needs that one: a link an
    admission may make. -/
def Brings (H : Hasher) (u : UtxoSet) (returned : List Transaction) (c p : Hash256) : Prop :=
  ∃ t ∈ returned, t.txid H = c ∧ p ∈ t.needs u

/-- Room for all that is returned: in entries and bytes, and below the limits on the ancestors
    of an entry and on the children of one. -/
structure SpareCapacity (H : Hasher) (m : Mempool) (u : UtxoSet) (returned : List Transaction) : Prop where
  count : m.entries.size + returned.length ≤ m.maxCount
  bytes : m.totalBytes + (returned.map Transaction.encodedSize).sum ≤ m.maxBytes
  fits : m.totalBytes + (returned.map Transaction.encodedSize).sum < 2 ^ 64
  ancestors : ∀ t ∈ returned, ∃ above : List Hash256, above.length ≤ maxAncestors ∧ (∀ p ∈ t.needs u, p ∈ above) ∧
    ∀ c ∈ above, ∀ p, m.Up c p ∨ Brings H u returned c p → p ∈ above
  descendants : ∀ t ∈ returned, ∀ p ∈ t.needs u, ∃ below : List Hash256, below.length < maxDescendants ∧
    ∀ c, m.Down p c ∨ (c ≠ t.txid H ∧ Brings H u returned c p) → c ∈ below

variable {H : Hasher} {u : UtxoSet} {verifier : AuthorizationVerifier} {now : UInt64}

theorem Transaction.mem_needs {t : Transaction} {p : Hash256} :
    p ∈ t.needs u ↔ ∃ o ∈ t.previousOutputs, u.entries[o]? = none ∧ o.txid = p := by
  simp only [needs, List.mem_map, List.mem_filter, Bool.not_eq_true', Table.not_contains_iff, and_assoc]

namespace Mempool

variable {m : Mempool}

theorem mem_transactions {t : Transaction} : t ∈ m.transactions ↔ ∃ (id : Hash256) (e : MempoolEntry),
    m.entries[id]? = some e ∧ e.transaction = t := by
  unfold transactions
  constructor
  · intro h
    obtain ⟨p, hp, rfl⟩ := List.mem_map.mp h
    exact ⟨p.1, p.2, Table.mem_toList.mp hp, rfl⟩
  · rintro ⟨id, e, he, rfl⟩
    exact List.mem_map.mpr ⟨(id, e), Table.mem_toList.mpr he, rfl⟩

theorem mem_ids {id : Hash256} : id ∈ m.ids ↔ ∃ e, m.entries[id]? = some e := by
  unfold ids
  constructor
  · intro h
    obtain ⟨p, hp, rfl⟩ := List.mem_map.mp h
    exact ⟨p.2, Table.mem_toList.mp hp⟩
  · rintro ⟨e, he⟩
    exact List.mem_map.mpr ⟨(id, e), Table.mem_toList.mpr he, rfl⟩

/-! ## One admission -/

/-- What the inputs resolve to, when the transactions they need are in the pool. -/
theorem resolveInputs_complete {parent : OutPoint → Transaction} {is : List TxIn} : ∀ (es : List UtxoEntry) {es' : List UtxoEntry}
    (ps : TxidSet), (is.map TxIn.previousOutput).map (resolveWith u parent) = es'.map some →
    (∀ o ∈ is.map TxIn.previousOutput, u.entries[o]? = none → ∃ e, m.entries[o.txid]? = some e ∧ e.transaction = parent o) →
      ∃ ps', m.resolveInputs u es ps is = .ok (es ++ es', ps') := by
  induction is with
  | nil =>
    intro es es' ps h _
    obtain rfl : es' = [] := List.map_eq_nil_iff.mp h.symm
    exact ⟨ps, by rw [resolveInputs, List.append_nil]⟩
  | cons i is ih =>
    intro es es' ps h hin
    cases es' with
    | nil => cases h
    | cons x xs =>
      rw [List.map_cons, List.map_cons, List.map_cons, List.cons.injEq] at h
      obtain ⟨hx, hrest⟩ := h
      rw [List.map_cons, List.forall_mem_cons] at hin
      obtain ⟨hi, hin⟩ := hin
      unfold resolveInputs
      simp only
      cases hu : u.entries[i.previousOutput]? with
      | some entry =>
        obtain rfl : entry = x := by simpa [resolveWith, hu] using hx
        obtain ⟨ps', hps⟩ := ih (es ++ [entry]) ps hrest hin
        exact ⟨ps', by simpa using hps⟩
      | none =>
        obtain ⟨e, he, htx⟩ := hi hu
        simp only [resolveWith, hu, Option.map_eq_some_iff] at hx
        obtain ⟨out, hout, rfl⟩ := hx
        obtain ⟨ps', hps⟩ := ih (es ++ [⟨out, 0, false⟩]) (ps.insert i.previousOutput.txid ()) hrest hin
        exact ⟨ps', by simpa only [he, htx, hout, List.append_assoc, List.singleton_append] using hps⟩

/-- The parents found are the transactions needed. -/
theorem resolved_parents {t : Transaction} {es : List UtxoEntry} {parents : TxidSet}
    (h : m.resolveInputs u [] ∅ t.inputs = .ok (es, parents)) (p : Hash256) : parents[p]? = some () ↔ p ∈ t.needs u := by
  rw [(resolveInputs_ok h).1 p, Transaction.mem_needs, Table.get_empty, Transaction.previousOutputs]
  constructor
  · rintro (h | ⟨i, hi, hp, hu⟩)
    · cases h
    · exact ⟨_, List.mem_map.mpr ⟨i, hi, rfl⟩, hu, hp⟩
  · rintro ⟨o, ho, hu, hp⟩
    obtain ⟨i, hi, rfl⟩ := List.mem_map.mp ho
    exact .inr ⟨i, hi, hp, hu⟩

/-- An entry for which there is room takes no other's place. -/
theorem makeRoom_of_room (entry : MempoolEntry) (hcount : m.entries.size < m.maxCount)
    (hbytes : m.totalBytes + entry.sizeBytes ≤ m.maxBytes) (f : Nat) : makeRoom entry (f + 1) m = (m, .ok ()) := by
  have hfull : ¬(m.entries.size ≥ m.maxCount ∨ addBytes m.totalBytes entry.sizeBytes > m.maxBytes) := by
    unfold addBytes
    omega
  rw [makeRoom, if_neg hfull]

theorem takeBack_of_room (u : UtxoSet) (verifier : AuthorizationVerifier) (now : UInt64) {t : Transaction}
    (hcount : m.entries.size < m.maxCount) (hbytes : m.totalBytes + t.encodedSize ≤ m.maxBytes) : m.takeBack H u verifier now t = m ∨
      ∃ entry parents, Admits H m t u verifier now entry parents ∧
        m.takeBack H u verifier now t = m.commitEntry entry parents := by
  unfold takeBack
  split
  · exact .inl rfl
  · rcases admit_cases H m t u verifier now with ⟨e, h⟩ | ⟨entry, parents, hadm, h⟩
    · exact .inl (by rw [h])
    · obtain ⟨-, -, hsize⟩ := hadm.entry_eq
      have hroom := makeRoom_of_room entry hcount (by rw [hsize]; exact hbytes) m.priorityIndex.size
      rcases h with ⟨m₁, e, h₁, -⟩ | ⟨m₁, h₁, h⟩
      · rw [hroom] at h₁
        cases h₁
      · rw [hroom] at h₁
        obtain rfl : m = m₁ := congrArg Prod.fst h₁
        exact .inr ⟨entry, parents, hadm, by rw [h]⟩

/-- A transaction that passes the checks is there afterwards. -/
theorem takeBack_of_admits {t : Transaction} {entry : MempoolEntry} {parents : TxidSet} (hcount : m.entries.size < m.maxCount)
    (hbytes : m.totalBytes + t.encodedSize ≤ m.maxBytes) (h : Admits H m t u verifier now entry parents) :
    m.takeBack H u verifier now t = m.commitEntry entry parents := by
  obtain ⟨-, -, hsize⟩ := h.entry_eq
  have hroom := makeRoom_of_room entry hcount (by rw [hsize]; exact hbytes) m.priorityIndex.size
  rw [takeBack, h.regular, admitTransaction, examine_ok_iff.mpr h]
  simp only [Bool.false_eq_true, if_false, hroom]

/-! ## The pass -/

/-- With room for all that is returned: the pool while it is taken back, from `base` on, with
    `rest` to come. -/
structure Pass (H : Hasher) (u : UtxoSet) (base : Mempool) (returned : List Transaction) (m : Mempool)
    (rest : List Transaction) : Prop where
  coming : rest ⊆ returned
  coherent : Coherent H m
  floor : m.minFeeRate = base.minFeeRate
  maxCount : m.maxCount = base.maxCount
  maxBytes : m.maxBytes = base.maxBytes
  count : m.entries.size + rest.length ≤ base.maxCount
  bytes : m.totalBytes + (rest.map Transaction.encodedSize).sum ≤ base.maxBytes
  fits : m.totalBytes + (rest.map Transaction.encodedSize).sum < 2 ^ 64
  source : ∀ (id : Hash256) (e : MempoolEntry), m.entries[id]? = some e →
    base.entries[id]? = some e ∨ (e.transaction ∈ returned ∧ e.transaction.isCoinbase = false)
  up : ∀ c p, m.Up c p → base.Up c p ∨ Brings H u returned c p
  down : ∀ p c, m.Down p c → base.Down p c ∨ (Brings H u returned c p ∧ ∃ e, m.entries[c]? = some e)

namespace Pass

variable {base : Mempool} {returned rest : List Transaction} {t : Transaction}

theorem start (hc : Coherent H base) (hroom : SpareCapacity H base u returned) : Pass H u base returned base returned :=
  ⟨fun _ h => h, hc, rfl, rfl, rfl, hroom.count, hroom.bytes, hroom.fits, fun _ _ h => .inl h, fun _ _ h => .inl h,
    fun _ _ h => .inl h⟩

theorem room (h : Pass H u base returned m (t :: rest)) : m.entries.size < m.maxCount ∧
    m.totalBytes + t.encodedSize ≤ m.maxBytes ∧ m.totalBytes + t.encodedSize < 2 ^ 64 := by
  have hcount := h.count
  have hbytes := h.bytes
  have hfits := h.fits
  rw [List.length_cons] at hcount
  rw [List.map_cons, List.sum_cons] at hbytes hfits
  rw [h.maxCount, h.maxBytes]
  omega

/-- The pool is left as it is. -/
theorem skip (h : Pass H u base returned m (t :: rest)) : Pass H u base returned m rest := by
  obtain ⟨hcount, hbytes, -⟩ := h.room
  have hsum := h.bytes
  have hfits := h.fits
  have hlen := h.count
  rw [List.length_cons] at hlen
  rw [List.map_cons, List.sum_cons] at hsum hfits
  exact ⟨(List.cons_subset.mp h.coming).2, h.coherent, h.floor, h.maxCount, h.maxBytes, by omega, by omega, by omega, h.source,
    h.up, h.down⟩

/-- A commit forgets no entry. -/
theorem commit_keeps {entry : MempoolEntry} {parents : TxidSet} {id : Hash256} (h : ∃ e, m.entries[id]? = some e) :
    ∃ e, (m.commitEntry entry parents).entries[id]? = some e := by
  show ∃ e, (m.entries.insert entry.txid entry)[id]? = some e
  rw [Table.get_insert]
  split
  · exact ⟨entry, rfl⟩
  · exact h

/-- The transaction is taken. -/
theorem commit {entry : MempoolEntry} {parents : TxidSet} (h : Pass H u base returned m (t :: rest))
    (hadm : Admits H m t u verifier now entry parents) :
    Pass H u base returned (m.commitEntry entry parents) rest := by
  obtain ⟨hcount, hbytes, hfits⟩ := h.room
  obtain ⟨htx, hid, hsize⟩ := hadm.entry_eq
  obtain ⟨ht, hcoming⟩ := List.cons_subset.mp h.coming
  obtain ⟨es, hres, -⟩ := hadm.resolved
  have hparents := resolved_parents hres
  have hlen := h.count
  have hsum := h.bytes
  have hfit := h.fits
  rw [List.length_cons] at hlen
  rw [List.map_cons, List.sum_cons] at hsum hfit
  have hself : ∃ e, (m.commitEntry entry parents).entries[entry.txid]? = some e :=
    ⟨entry, Table.get_insert_self m.entries entry.txid entry⟩
  have hbrings : ∀ p, parents[p]? = some () → Brings H u returned entry.txid p := fun p hp =>
    ⟨t, ht, hid.symm, (hparents p).mp hp⟩
  have htotal : (m.commitEntry entry parents).totalBytes ≤ m.totalBytes + t.encodedSize := by
    show addBytes m.totalBytes entry.sizeBytes ≤ _
    rw [addBytes, hsize]
    omega
  have hsize' : (m.commitEntry entry parents).entries.size ≤ m.entries.size + 1 := Std.ExtTreeMap.size_insert_le
  have hcoherent : Coherent H (m.commitEntry entry parents) := by
    refine h.coherent.commitEntry parents (by rw [htx, hid]) (by rw [hid]; exact hadm.fresh) (fun o ho => ?_)
      (by rw [hsize]; exact hfits)
    rw [MempoolEntry.spends, htx] at ho
    exact findConflict_eq_none.mp hadm.unconflicted o ho
  refine ⟨hcoming, hcoherent, h.floor, h.maxCount, h.maxBytes, by omega, by omega, by omega, fun id e he => ?_,
    fun c p hup => ?_, fun p c hdown => ?_⟩
  · rcases (m.get_commitEntry entry parents id e).mp he with ⟨-, rfl⟩ | ⟨-, he⟩
    · exact .inr (by rw [htx]; exact ⟨ht, hadm.regular⟩)
    · exact h.source id e he
  · rcases commit_up_imp hup with hup | ⟨rfl, hp⟩
    · exact h.up c p hup
    · exact .inr (hbrings p hp)
  · rcases (commit_down m entry parents p c).mp hdown with hdown | ⟨rfl, hp⟩
    · exact (h.down p c hdown).imp_right (And.imp_right commit_keeps)
    · exact .inr ⟨hbrings p hp, hself⟩

theorem step (h : Pass H u base returned m (t :: rest)) :
    Pass H u base returned (m.takeBack H u verifier now t) rest := by
  obtain ⟨hcount, hbytes, -⟩ := h.room
  rcases takeBack_of_room u verifier now hcount hbytes with hsame | ⟨entry, parents, hadm, htake⟩
  · rw [hsame]
    exact h.skip
  · rw [htake]
    exact h.commit hadm

/-- What is in the pool stays. -/
theorem keeps (h : Pass H u base returned m (t :: rest)) {id : Hash256} (hin : ∃ e, m.entries[id]? = some e) :
    ∃ e, (m.takeBack H u verifier now t).entries[id]? = some e := by
  obtain ⟨hcount, hbytes, -⟩ := h.room
  rcases takeBack_of_room u verifier now hcount hbytes with hsame | ⟨entry, parents, -, htake⟩
  · rw [hsame]
    exact hin
  · rw [htake]
    exact commit_keeps hin

theorem run (h : Pass H u base returned m rest) :
    Pass H u base returned (rest.foldl (takeBack H u verifier now) m) [] := by
  induction rest generalizing m with
  | nil => exact h
  | cons t rest ih => exact ih h.step

/-- An entry is a transaction of the pool before, or a returned one. -/
theorem known (h : Pass H u base returned m rest) {id : Hash256} {e : MempoolEntry} (he : m.entries[id]? = some e) :
    e.transaction ∈ base.transactions ++ returned := by
  rcases h.source id e he with hb | ⟨hr, -⟩
  · exact List.mem_append_left _ (mem_transactions.mpr ⟨id, e, hb, rfl⟩)
  · exact List.mem_append_right _ hr

/-- Under the identifier of a returned transaction stands that transaction. -/
theorem holds_iff (h : Pass H u base returned m rest) (hids : DistinctIds H (base.transactions ++ returned))
    (ht : t ∈ returned) : m.Holds H t ↔ ∃ e, m.entries[t.txid H]? = some e := by
  refine ⟨fun ⟨e, he, _⟩ => ⟨e, he⟩, fun ⟨e, he⟩ => ⟨e, he, ?_⟩⟩
  exact hids _ (h.known he) _ (List.mem_append_right _ ht) (h.coherent.keyed _ e he).2

/-- The links stay below their limits. -/
theorem limits (h : Pass H u base returned m (t :: rest)) (hroom : SpareCapacity H base u returned)
    (hfresh : m.entries[t.txid H]? = none) {parents : TxidSet} (hparents : ∀ p, parents[p]? = some () ↔ p ∈ t.needs u) :
    m.WithinLimits parents := by
  obtain ⟨ht, -⟩ := List.cons_subset.mp h.coming
  constructor
  · obtain ⟨above, hlen, hneeds, hclosed⟩ := hroom.ancestors t ht
    obtain ⟨seen, hnodup, -, -, hleast, hcount⟩ := countAncestors_spec m.childToParents parents
    have habove : seen ⊆ above := fun a ha => hleast (· ∈ above) (fun p hp => hneeds p ((hparents p).mp hp))
      (fun c p hc hp => hclosed c hc p (h.up c p hp)) a ha
    have hle := (List.subperm_of_subset hnodup habove).length_le
    rw [← hcount] at hle
    exact Nat.le_trans hle hlen
  · intro p hp
    have hp := (hparents p.1).mp (Table.mem_toList.mp hp)
    obtain ⟨below, hlen, hbelow⟩ := hroom.descendants t ht p.1 hp
    cases hrow : m.parentToChildren[p.1]? with
    | none => exact Nat.lt_of_le_of_lt (Nat.zero_le _) hlen
    | some children =>
      refine Nat.lt_of_le_of_lt (Table.size_le_length fun c v hc => hbelow c ?_) hlen
      refine (h.down p.1 c ⟨children, hrow, hc⟩).imp_right fun ⟨hb, e, he⟩ => ⟨?_, hb⟩
      rintro rfl
      rw [hfresh] at he
      cases he

end Pass

section
variable {base : Mempool} {returned rest : List Transaction} {lost : Transaction → Prop} {t : Transaction}

/-- When what it needs is in the pool, a transaction that can be taken back is taken. -/
theorem Pass.takes (h : Pass H u base returned m (t :: rest)) (hids : DistinctIds H (base.transactions ++ returned))
    (hroom : SpareCapacity H base u returned) (hlost : ∀ t, lost t ↔ t ∈ returned ∧ t.isCoinbase = false)
    (hvalid : ∀ t, lost t → t.validateStateless = .ok () ∧ t.encodable = true)
    (hr : Readmissible H verifier now base u lost t) (hneeds : ∀ p ∈ t.needs u, ∃ e, m.entries[p]? = some e) :
    ∃ e, (m.takeBack H u verifier now t).entries[t.txid H]? = some e := by
  cases hfresh : m.entries[t.txid H]? with
  | some e => exact h.keeps ⟨e, hfresh⟩
  | none =>
    obtain ⟨parent, isLost, resolves, ⟨hauth, totalIn, totalOut, hin, hout, hle, hentry, hfee⟩, free, alone, named,
      parents⟩ := hr
    obtain ⟨hstateless, hencodable⟩ := hvalid t isLost
    -- the transactions it needs are those in the pool
    have hthere : ∀ o ∈ t.previousOutputs, u.entries[o]? = none → ∃ e, m.entries[o.txid]? = some e ∧ e.transaction = parent o := by
      intro o ho hu
      obtain ⟨e, he⟩ := hneeds o.txid (Transaction.mem_needs.mpr ⟨o, ho, hu, rfl⟩)
      have hparent : parent o ∈ returned := by
        obtain ⟨-, hl, -⟩ := parents o ho hu
        exact ((hlost _).mp hl).1
      refine ⟨e, he, hids _ (h.known he) _ (List.mem_append_right _ hparent) ?_⟩
      rw [(h.coherent.keyed _ e he).2, named o ho hu]
    obtain ⟨ps, hres⟩ := resolveInputs_complete [] ∅ resolves hthere
    -- an entry that spends what it spends would be the transaction itself
    have hconflict : m.findConflict t.inputs = none := by
      refine findConflict_eq_none.mpr fun o ho => ?_
      cases hs : m.spentOutpoints[o]? with
      | none => rfl
      | some id =>
        obtain ⟨e, he, hoe⟩ := (h.coherent.spent o id).mp hs
        have hid : id = t.txid H := by
          rcases h.source id e he with hb | ⟨hret, hcb⟩
          · exact free id e hb o ho hoe
          · rw [← (h.coherent.keyed id e he).2]
            exact alone e.transaction ((hlost _).mpr ⟨hret, hcb⟩) o ho hoe
        rw [hid, hfresh] at he
        cases he
    have hadm : Admits H m t u verifier now (MempoolEntry.new H t (totalIn - totalOut) now) ps :=
      ⟨hstateless, ((hlost t).mp isLost).2, hencodable, hfresh, hconflict,
        h.limits hroom hfresh (resolved_parents hres), _, hres, hauth, totalIn, totalOut, hin, hout, hle, rfl, by
          rw [h.floor, ← hentry]; exact hfee⟩
    obtain ⟨hcount, hbytes, -⟩ := h.room
    rw [takeBack_of_admits hcount hbytes hadm]
    exact ⟨_, Table.get_insert_self m.entries (t.txid H) _⟩

/-- What an admission adds is the transaction, and all it needs was there. -/
theorem takeBack_sound (m : Mempool) (t : Transaction) {id : Hash256}
    (h : ∃ e, (m.takeBack H u verifier now t).entries[id]? = some e) :
    (∃ e, m.entries[id]? = some e) ∨ (id = t.txid H ∧ ∀ p ∈ t.needs u, ∃ e, m.entries[p]? = some e) := by
  unfold takeBack at h
  split at h
  · exact .inl h
  · obtain ⟨e, he⟩ := h
    rcases admit_cases H m t u verifier now with ⟨x, hres⟩ | ⟨entry, parents, hadm, ⟨m₁, x, hmake, hres⟩ | ⟨m₁, hmake, hres⟩⟩
    · rw [hres] at he
      exact .inl ⟨e, he⟩
    · have hw := makeRoom_within entry (m.priorityIndex.size + 1) m
      rw [hmake] at hw
      rw [hres] at he
      exact .inl ⟨e, hw id e he⟩
    · have hw := makeRoom_within entry (m.priorityIndex.size + 1) m
      rw [hmake] at hw
      rw [hres] at he
      rcases (get_commitEntry _ _ _ _ _).mp he with ⟨rfl, -⟩ | ⟨-, he⟩
      · obtain ⟨-, hid, -⟩ := hadm.entry_eq
        obtain ⟨es, hres, -⟩ := hadm.resolved
        refine .inr ⟨hid, fun p hp => ?_⟩
        obtain ⟨o, ho, hu, rfl⟩ := Transaction.mem_needs.mp hp
        obtain ⟨i, hi, rfl⟩ := List.mem_map.mp ho
        obtain ⟨ep, hep, -⟩ := (resolveInputs_ok hres).2 i hi hu
        exact ⟨ep, hep⟩
      · exact .inl ⟨e, hw id e he⟩

/-- Where there is room, a transaction that can be taken back is in the pool afterwards exactly
    when it is listed after all it needs. -/
theorem readmitted_iff (hc : Coherent H base) (hids : DistinctIds H (base.transactions ++ returned))
    (hroom : SpareCapacity H base u returned) (hlost : ∀ t, lost t ↔ t ∈ returned ∧ t.isCoinbase = false)
    (hvalid : ∀ t, lost t → t.validateStateless = .ok () ∧ t.encodable = true)
    (hr : Readmissible H verifier now base u lost t) : (base.onReorg H returned u verifier now).1.Holds H t ↔
      t.txid H ∈ OnePass.settle (Transaction.txid H) (Transaction.needs u) base.ids returned := by
  have hstart := Pass.start hc hroom
  have hlostOf : ∀ {t}, Readmissible H verifier now base u lost t → t ∈ returned := fun hr => by
    obtain ⟨-, hl, -⟩ := hr
    exact ((hlost _).mp hl).1
  rw [onReorg_fst, hstart.run.holds_iff hids (hlostOf hr)]
  constructor
  · exact OnePass.mem_settle_of_foldl (fun (m : Mempool) id => ∃ e, m.entries[id]? = some e)
      (fun m t id h => takeBack_sound m t h) returned (fun id h => mem_ids.mpr h) _
  · have hself : ∀ {a}, a ∈ returned → (∃ t, Readmissible H verifier now base u lost t ∧ t.txid H = a.txid H) →
        Readmissible H verifier now base u lost a := by
      rintro a ha ⟨t, ht, heq⟩
      rw [← hids _ (List.mem_append_right _ (hlostOf ht)) _ (List.mem_append_right _ ha) heq]
      exact ht
    intro hin
    refine OnePass.foldl_of_mem_settle (fun (m : Mempool) id => ∃ e, m.entries[id]? = some e)
      (fun id => ∃ t, Readmissible H verifier now base u lost t ∧ t.txid H = id) (Pass H u base returned) Pass.step
      (fun h id => h.keeps) (fun {m a l} h hg hn => ?_) returned (fun a ha hg n hn => ?_) hstart (fun id hid _ => mem_ids.mp hid) _ hin ⟨t, hr, rfl⟩
    · obtain ⟨ha, -⟩ := List.cons_subset.mp h.coming
      exact h.takes hids hroom hlost hvalid (hself ha hg) fun p hp => (hn p hp).2
    · obtain ⟨parent, -, -, -, -, -, named, parents⟩ := hself ha hg
      obtain ⟨o, ho, hu, rfl⟩ := Transaction.mem_needs.mp hn
      exact ⟨parent o, parents o ho hu, named o ho hu⟩

end

end Mempool

end Scytale
