/-
  Scytale.Mempool.Admission — what an operation on the pool does
  (crates/scytale-mempool/src/pool.rs).

  - `KeptByDrop`: what dropping an entry keeps, removals, evictions and connected blocks keep.
  - `examine_ok_iff`: the checks a transaction passes, all of them.
  - `admit_cases`: an admission leaves the pool, makes room and gives up, or makes room and
    commits.
  - `PoolRun`: the pools of all runs of admissions, removals, connected blocks and
    reorganisations.
-/
import Scytale.Mempool.Pool

namespace Scytale

open Lib

variable {H : Hasher}

namespace Mempool

/-! ## Removing -/

/-- A property of the pool that looks at no links and that dropping an entry keeps. -/
structure KeptByDrop (P : Mempool → Prop) : Prop where
  drop : ∀ (m : Mempool) (txid : Hash256), P m → P (m.dropEntry txid)
  links : ∀ (m : Mempool) (down up : Table Hash256 TxidSet), P m →
    P { m with parentToChildren := down, childToParents := up }

namespace KeptByDrop

variable {P : Mempool → Prop} {m : Mempool}

theorem unlinkParents (k : KeptByDrop P) (txid : Hash256) (h : P m) : P (m.unlinkParents txid) := by
  unfold Mempool.unlinkParents
  split
  · exact h
  · exact k.links _ _ _ h

theorem confirmOne (k : KeptByDrop P) (txid : Hash256) (h : P m) : P (m.confirmOne txid) :=
  k.unlinkParents txid (k.drop m txid h)

theorem removeOne (k : KeptByDrop P) (txid : Hash256) (h : P m) : P (m.removeOne txid) :=
  k.links _ _ _ (k.confirmOne txid h)

theorem removal (k : KeptByDrop P) (txid : Hash256) (h : P m) : P (m.removeTransactionAndDescendants txid).1 :=
  List.foldlRecOn _ _ h fun _ h id _ => k.removeOne id h

theorem onBlockConnected (k : KeptByDrop P) (block : Block) (utxos : UtxoSet) (h : P m) :
    P (m.onBlockConnected H block utxos) :=
  List.foldlRecOn _ _ (List.foldlRecOn _ _ h fun _ h id _ => k.confirmOne id h) fun _ h id _ => k.removal id h

/-- What the eviction loop leaves, also when it gives up. -/
theorem makeRoom (k : KeptByDrop P) (entry : MempoolEntry) (f : Nat) : ∀ {m : Mempool}, P m →
    P (Mempool.makeRoom entry f m).1 := by
  induction f with
  | zero => intro m h; exact h
  | succ f ih =>
    intro m h
    unfold Mempool.makeRoom
    split
    · split
      · exact h
      · split
        · exact ih (k.removal _ h)
        · exact h
    · exact h

end KeptByDrop

theorem dropEntry_within (m : Mempool) (txid : Hash256) : Table.Within (m.dropEntry txid).entries m.entries := by
  unfold dropEntry
  split
  · exact fun _ _ h => h
  · intro id e h
    have h : (m.entries.erase txid)[id]? = some e := h
    rw [Table.get_erase] at h
    split at h
    · cases h
    · exact h

theorem keptByDrop_within (base : Mempool) : KeptByDrop fun m => Table.Within m.entries base.entries where
  drop m txid h := fun id e he => h id e (dropEntry_within m txid id e he)
  links _ _ _ h := h

theorem onBlockConnected_within (m : Mempool) (block : Block) (utxos : UtxoSet) :
    Table.Within (m.onBlockConnected H block utxos).entries m.entries :=
  (keptByDrop_within m).onBlockConnected block utxos fun _ _ h => h

theorem makeRoom_within (entry : MempoolEntry) (f : Nat) (m : Mempool) :
    Table.Within (makeRoom entry f m).1.entries m.entries :=
  (keptByDrop_within m).makeRoom entry f fun _ _ h => h

/-! ## The checks -/

/-- The ancestors and the children of the parents are within their limits. -/
structure WithinLimits (m : Mempool) (parents : TxidSet) : Prop where
  ancestors : countAncestors m.childToParents (parents.size + linkCount m.childToParents + 1)
    (parents.toList.map (·.1)).reverse parents parents.size ≤ maxAncestors
  descendants : ∀ p ∈ parents.toList, (m.parentToChildren[p.1]?.map (·.size)).getD 0 < maxDescendants

/-- What the pool asks of a transaction whose inputs resolve to `es`: the verifier accepts, and
    the fee of the entry reaches the floor. -/
def Acceptable (H : Hasher) (verifier : AuthorizationVerifier) (now minFeeRate : UInt64) (tx : Transaction) (es : List UtxoEntry)
    (entry : MempoolEntry) : Prop :=
  verifyTransactionAuthorization H tx es verifier = .ok () ∧ ∃ totalIn totalOut, sumEntries 0 es = .ok totalIn ∧
    tx.totalOutputQuanta = .ok totalOut ∧ totalOut ≤ totalIn ∧ entry = MempoolEntry.new H tx (totalIn - totalOut) now ∧
    minFeeRate ≤ entry.feeRate

/-- A transaction that passes the checks, with its entry and its parents in the pool. -/
structure Admits (H : Hasher) (m : Mempool) (tx : Transaction) (utxos : UtxoSet) (verifier : AuthorizationVerifier)
    (now : UInt64) (entry : MempoolEntry) (parents : TxidSet) : Prop where
  stateless : tx.validateStateless = .ok ()
  regular : tx.isCoinbase = false
  encodable : tx.encodable = true
  fresh : m.entries[tx.txid H]? = none
  unconflicted : m.findConflict tx.inputs = none
  limits : m.WithinLimits parents
  resolved : ∃ es, m.resolveInputs utxos [] ∅ tx.inputs = .ok (es, parents) ∧
    Acceptable H verifier now m.minFeeRate tx es entry

section
variable {m : Mempool} {tx : Transaction} {utxos : UtxoSet} {verifier : AuthorizationVerifier} {now : UInt64}

theorem examine_ok_iff {entry : MempoolEntry} {parents : TxidSet} :
    m.examine H tx utxos verifier now = .ok (entry, parents) ↔ Admits H m tx utxos verifier now entry parents := by
  constructor
  · intro h
    unfold examine at h
    split at h
    · cases h
    · rename_i hv
      split at h
      · cases h
      · rename_i hcb
        split at h
        · cases h
        · rename_i henc
          split at h
          · cases h
          · rename_i hfresh
            split at h
            · cases h
            · rename_i hconf
              split at h
              · cases h
              · rename_i es ps hres
                simp only at h
                split at h
                · cases h
                · rename_i hanc
                  split at h
                  · cases h
                  · rename_i hdesc
                    split at h
                    · cases h
                    · rename_i hauth
                      split at h
                      · cases h
                      · rename_i totalIn hin
                        split at h
                        · cases h
                        · rename_i totalOut hout
                          split at h
                          · cases h
                          · rename_i hle
                            split at h
                            · cases h
                            · rename_i hfee
                              cases h
                              refine ⟨hv, by simpa using hcb, by simpa using henc, ?_, hconf,
                                ⟨Nat.le_of_not_lt hanc, by simpa using hdesc⟩, es, hres, hauth, totalIn, totalOut, hin, hout,
                                UInt64.not_lt.mp hle, rfl, UInt64.not_lt.mp hfee⟩
                              exact (Table.not_contains_iff _ _).mp (Bool.eq_false_of_not_eq_true hfresh)
  · rintro ⟨hv, hcb, henc, hfresh, hconf, ⟨hanc, hdesc⟩, es, hres, hauth, totalIn, totalOut, hin, hout, hle, rfl, hfee⟩
    have hfresh := (Table.not_contains_iff _ _).mpr hfresh
    have hdesc : (parents.toList.any fun p => decide ((m.parentToChildren[p.1]?.map (·.size)).getD 0 ≥ maxDescendants)) =
        false := by simpa using hdesc
    simp only [examine, hv, hcb, henc, hfresh, hconf, hres, Nat.not_lt.mpr hanc, hdesc, hauth, hin, hout,
      UInt64.not_lt.mpr hle, UInt64.not_lt.mpr hfee, Bool.not_true, Bool.false_eq_true, if_false]

/-- An admission refuses and changes nothing, or makes room, and then gives up or commits. -/
theorem admit_cases (H : Hasher) (m : Mempool) (tx : Transaction) (utxos : UtxoSet) (verifier : AuthorizationVerifier)
    (now : UInt64) : (∃ e, m.admitTransaction H tx utxos verifier now = (m, .error e)) ∨
      ∃ entry parents, Admits H m tx utxos verifier now entry parents ∧
        ((∃ m₁ e, makeRoom entry (m.priorityIndex.size + 1) m = (m₁, .error e) ∧
            m.admitTransaction H tx utxos verifier now = (m₁, .error e)) ∨
          ∃ m₁, makeRoom entry (m.priorityIndex.size + 1) m = (m₁, .ok ()) ∧
            m.admitTransaction H tx utxos verifier now = (m₁.commitEntry entry parents, .ok entry.txid)) := by
  unfold admitTransaction
  split
  · exact .inl ⟨_, rfl⟩
  · rename_i entry parents hex
    refine .inr ⟨entry, parents, examine_ok_iff.mp hex, ?_⟩
    split
    · rename_i m₁ e hroom
      exact .inl ⟨m₁, e, hroom, rfl⟩
    · rename_i m₁ hroom
      exact .inr ⟨m₁, hroom, rfl⟩

/-- What holds of the pool, when room is made in it and when the entry is in, holds after an
    admission, whatever its answer. -/
theorem admission_keeps {P : Mempool → Prop} (h : P m)
    (hroom : ∀ entry : MempoolEntry, P (makeRoom entry (m.priorityIndex.size + 1) m).1)
    (hcommit : ∀ {entry parents m₁}, Admits H m tx utxos verifier now entry parents →
      makeRoom entry (m.priorityIndex.size + 1) m = (m₁, .ok ()) → P m₁ → P (m₁.commitEntry entry parents)) :
    P (m.admitTransaction H tx utxos verifier now).1 := by
  rcases admit_cases H m tx utxos verifier now with ⟨e, hres⟩ | ⟨entry, parents, hadm, ⟨m₁, e, hr, hres⟩ | ⟨m₁, hr, hres⟩⟩
  · rw [hres]
    exact h
  · have hk := hroom entry
    rw [hr] at hk
    rw [hres]
    exact hk
  · have hk := hroom entry
    rw [hr] at hk
    rw [hres]
    exact hcommit hadm hr hk

end

/-! ## Runs -/

/-- One transaction of a disconnected block. -/
def takeBack (H : Hasher) (utxos : UtxoSet) (verifier : AuthorizationVerifier) (now : UInt64) (m : Mempool) (tx : Transaction) :
    Mempool := if tx.isCoinbase then m else (m.admitTransaction H tx utxos verifier now).1

/-- The pool after a reorganisation: one transaction after the other. -/
theorem onReorg_fst (m : Mempool) (txs : List Transaction) (utxos : UtxoSet) (verifier : AuthorizationVerifier)
    (now : UInt64) : (m.onReorg H txs utxos verifier now).1 = txs.foldl (takeBack H utxos verifier now) m := by
  unfold onReorg
  -- The pool of a round does not depend on the rejections collected before it.
  refine (List.foldl_hom Prod.fst fun s tx => ?_).symm
  rw [takeBack]
  split
  · rfl
  · rcases s.1.admitTransaction H tx utxos verifier now with ⟨m₁, e | id⟩
    · rfl
    · rfl

end Mempool

/-- What is done to a pool. -/
inductive PoolOp where
  | admitTx (tx : Transaction) (utxos : UtxoSet) (verifier : AuthorizationVerifier) (now : UInt64)
  | remove (txid : Hash256)
  | connect (block : Block) (utxos : UtxoSet)
  | reorg (txs : List Transaction) (utxos : UtxoSet) (verifier : AuthorizationVerifier) (now : UInt64)

def Mempool.step (H : Hasher) (m : Mempool) : PoolOp → Mempool
  | .admitTx tx utxos verifier now => (m.admitTransaction H tx utxos verifier now).1
  | .remove txid => (m.removeTransactionAndDescendants txid).1
  | .connect block utxos => m.onBlockConnected H block utxos
  | .reorg txs utxos verifier now => (m.onReorg H txs utxos verifier now).1

/-- The pools reached from an empty one by operations that meet a condition where they are
    done. -/
inductive PoolRun (H : Hasher) (allowed : Mempool → PoolOp → Prop) : Mempool → Prop where
  | empty (maxCount maxBytes : Nat) (minFeeRate : UInt64) :
      PoolRun H allowed (Mempool.withConfig maxCount maxBytes minFeeRate)
  | step {m : Mempool} (h : PoolRun H allowed m) (op : PoolOp) (hop : allowed m op) : PoolRun H allowed (m.step H op)

/-- What holds of every empty pool and is kept by every allowed operation holds of the pools of
    all runs. -/
theorem PoolRun.keeps {allowed : Mempool → PoolOp → Prop} {P : Mempool → Prop}
    (hempty : ∀ maxCount maxBytes minFeeRate, P (Mempool.withConfig maxCount maxBytes minFeeRate))
    (hstep : ∀ m op, P m → allowed m op → P (m.step H op)) {m : Mempool} (h : PoolRun H allowed m) : P m := by
  induction h with
  | empty maxCount maxBytes minFeeRate => exact hempty maxCount maxBytes minFeeRate
  | step _ op hop ih => exact hstep _ op ih hop

theorem PoolRun.mono {allowed allowed' : Mempool → PoolOp → Prop} (hle : ∀ m op, allowed m op → allowed' m op) {m : Mempool}
    (h : PoolRun H allowed m) : PoolRun H allowed' m :=
  h.keeps .empty fun m op hm hop => hm.step op (hle m op hop)

end Scytale
