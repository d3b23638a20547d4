/-
  Scytale.Mempool.Pending — what the entries spend, in a pool that is only admitted to
  (crates/scytale-mempool/src/pool.rs).

  All admissions are against one canonical set. What an entry spends was looked up when it was
  admitted; the parents it was found in may have left since, and come back.
  - `Spends`: an output of the set, or one under a recorded parent's identifier.
  - `Payable`: every input is such an output, and the fee is what they leave.
  - `payable_admission`: an admission, with its evictions, keeps the entries payable.
-/
import Scytale.Core.TxIdentity
import Scytale.Mempool.Cascade
import Scytale.Mempool.Fees

namespace Scytale

open Lib

/-- It accepts no spend of a data carrier. -/
def RefusesCarriers (verifier : AuthorizationVerifier) : Prop := ∀ (digest : Hash256) (lock proof : Bytes),
  verifier digest lock proof = .ok () → lock.head? ≠ some 0x6a

/-- A transaction with one of the given encodings. -/
structure Known (strings : List Bytes) (t : Transaction) : Prop where
  encoded : t.canonicalBytes ∈ strings
  encodable : t.encodable = true
  sized : t.sized

variable {H : Hasher} {S : UtxoSet} {strings : List Bytes} {m m' : Mempool} {entry : MempoolEntry}

theorem Known.eq_of_txid {a b : Transaction} (hH : CollisionFree H strings) (ha : Known strings a) (hb : Known strings b)
    (h : a.txid H = b.txid H) : a = b :=
  txid_inj hH ha.encoded hb.encoded ha.encodable hb.encodable ha.sized hb.sized h

/-- An outpoint the entry `c` spends, and its output: it is in the set, or of a transaction
    recorded as a parent, and can be spent. -/
inductive Spends (H : Hasher) (S : UtxoSet) (strings : List Bytes) (m : Mempool) (c : Hash256) (o : OutPoint) (out : TxOut) :
    Prop where
  | unspent {e : UtxoEntry} (h : S.entries[o]? = some e) (hout : e.output = out)
  | pending {t : Transaction} (hnone : S.entries[o]? = none) (hup : m.Up c o.txid) (hknown : Known strings t)
      (hid : t.txid H = o.txid) (hout : t.outputs[o.index.toNat]? = some out) (hspendable : out.isOpReturn = false)

/-- An entry that can be paid from what it spends. -/
structure Payable (H : Hasher) (S : UtxoSet) (strings : List Bytes) (m : Mempool) (id : Hash256) (e : MempoolEntry) : Prop where
  known : Known strings e.transaction
  stateless : e.transaction.validateStateless = .ok ()
  regular : e.transaction.isCoinbase = false
  size : e.sizeBytes = e.transaction.encodedSize
  paid : ∃ outs totalOut, List.Forall₂ (fun i out => Spends H S strings m id i.previousOutput out) e.transaction.inputs outs ∧
    Transaction.outputSum outs < 2 ^ 64 ∧ e.transaction.totalOutputQuanta = .ok totalOut ∧
      e.fee.toNat + totalOut.toNat = Transaction.outputSum outs

def PoolPayable (H : Hasher) (S : UtxoSet) (strings : List Bytes) (m : Mempool) : Prop :=
  ∀ (id : Hash256) (e : MempoolEntry), m.entries[id]? = some e → Payable H S strings m id e

/-- The row of an entry is all that counts. -/
theorem Payable.mono {id : Hash256} {e : MempoolEntry} (h : Payable H S strings m id e) (hup : ∀ p, m.Up id p → m'.Up id p) :
    Payable H S strings m' id e := by
  obtain ⟨outs, totalOut, hspends, hpaid⟩ := h.paid
  refine { h with paid := ⟨outs, totalOut, hspends.imp fun i out hs => ?_, hpaid⟩ }
  cases hs with
  | unspent hs hout => exact .unspent hs hout
  | pending hnone hrow hknown hid hout hspendable => exact .pending hnone (hup _ hrow) hknown hid hout hspendable

theorem Mempool.Cut.payable {gone forgotten : Hash256 → Prop} (hcut : Mempool.Cut m m' gone forgotten)
    (h : PoolPayable H S strings m) : PoolPayable H S strings m' := by
  intro id e he
  obtain ⟨hstays, he⟩ := (hcut.entries id e).mp he
  exact (h id e he).mono fun p hup => (hcut.up id p).mpr ⟨hstays, hup⟩

namespace Mempool

/-! ## What the checks find -/

/-- Where the entry an input resolves to is from. -/
def Resolves (m : Mempool) (S : UtxoSet) (i : TxIn) (e : UtxoEntry) : Prop :=
  S.entries[i.previousOutput]? = some e ∨ (S.entries[i.previousOutput]? = none ∧
    ∃ ep, m.entries[i.previousOutput.txid]? = some ep ∧
      ep.transaction.outputs[i.previousOutput.index.toNat]? = some e.output)

theorem resolveInputs_resolves {is : List TxIn} : ∀ {es es' : List UtxoEntry} {ps ps' : TxidSet},
    m.resolveInputs S es ps is = .ok (es', ps') → ∃ new, es' = es ++ new ∧ List.Forall₂ (m.Resolves S) is new := by
  induction is with
  | nil =>
    intro es es' ps ps' h
    cases h
    exact ⟨[], by simp, .nil⟩
  | cons i is ih =>
    intro es es' ps ps' h
    have hnext : ∀ {e ps₁}, m.Resolves S i e → m.resolveInputs S (es ++ [e]) ps₁ is = .ok (es', ps') →
        ∃ new, es' = es ++ new ∧ List.Forall₂ (m.Resolves S) (i :: is) new := by
      intro e ps₁ he h
      obtain ⟨new, hes, hnew⟩ := ih h
      exact ⟨e :: new, by rw [hes, List.append_assoc, List.singleton_append], .cons he hnew⟩
    unfold resolveInputs at h
    simp only at h
    split at h
    · rename_i e he
      exact hnext (.inl he) h
    · rename_i hnone
      split at h
      · cases h
      · rename_i parent hparent
        split at h
        · cases h
        · rename_i out hout
          exact hnext (.inr ⟨hnone, parent, hparent, hout⟩) h

theorem verifyAuthorizations_accepts {tx : Transaction} {verifier : AuthorizationVerifier} {l : List (TxIn × UtxoEntry)} :
    ∀ {idx : Nat}, verifyAuthorizations H tx verifier idx l = .ok () → ∀ p ∈ l, ∃ digest,
      verifier digest p.2.output.lockingCondition p.1.authorization = .ok () := by
  induction l with
  | nil => intro idx _ p hp; cases hp
  | cons q l ih =>
    obtain ⟨input, e⟩ := q
    intro idx h
    unfold verifyAuthorizations at h
    split at h
    · cases h
    · split at h
      · cases h
      · rename_i hverdict
        exact List.forall_mem_cons.mpr ⟨⟨_, hverdict⟩, ih h⟩

/-- What the inputs resolve to carries no data. -/
theorem authorized_spendable {tx : Transaction} {verifier : AuthorizationVerifier} (hv : RefusesCarriers verifier)
    {es : List UtxoEntry} (h : verifyTransactionAuthorization H tx es verifier = .ok ()) :
    ∀ e ∈ es, e.output.isOpReturn = false := by
  unfold verifyTransactionAuthorization at h
  split at h
  · cases h
  · rename_i hlen
    intro e he
    obtain ⟨n, hn, rfl⟩ := List.getElem_of_mem he
    have hin : n < tx.inputs.length := by omega
    have hmem : (tx.inputs[n], es[n]) ∈ tx.inputs.zip es :=
      List.mem_iff_getElem.mpr ⟨n, by rw [List.length_zip]; omega, List.getElem_zip⟩
    obtain ⟨digest, haccept⟩ := verifyAuthorizations_accepts h _ hmem
    have := hv digest _ _ haccept
    simpa [TxOut.isOpReturn] using this

/-! ## Admissions -/

section
variable {tx : Transaction} {verifier : AuthorizationVerifier} {now : UInt64} {parents : TxidSet}

/-- What an input resolved to is what the new entry spends. -/
theorem Resolves.spends {i : TxIn} {e : UtxoEntry} {c : Hash256} (h : m.Resolves S i e) (hm : IndexedPool H m)
    (hpay : PoolPayable H S strings m) (hup : S.entries[i.previousOutput]? = none → m'.Up c i.previousOutput.txid)
    (hspendable : e.output.isOpReturn = false) : Spends H S strings m' c i.previousOutput e.output := by
  rcases h with h | ⟨hnone, ep, hep, hout⟩
  · exact .unspent h rfl
  · exact .pending hnone (hup hnone) (hpay _ ep hep).known (hm.keyed _ ep hep).2 hout hspendable

theorem payable_commit {m₁ : Mempool} (hadm : Admits H m tx S verifier now entry parents) (hv : RefusesCarriers verifier)
    (hknown : Known strings tx) (hm : IndexedPool H m) (hpay : PoolPayable H S strings m)
    (hpay₁ : PoolPayable H S strings m₁) (hfresh : m₁.entries[entry.txid]? = none) :
    PoolPayable H S strings (m₁.commitEntry entry parents) := by
  intro id e he
  rcases (get_commitEntry m₁ entry parents id e).mp he with ⟨rfl, rfl⟩ | ⟨hne, he⟩
  · obtain ⟨htx, -, hsize⟩ := hadm.entry_eq
    obtain ⟨es, hres, hauth, totalIn, totalOut, hin, hout, hle, rfl, -⟩ := hadm.resolved
    obtain ⟨new, hes, hnew⟩ := resolveInputs_resolves hres
    rw [List.nil_append] at hes
    subst hes
    have hrow : ∀ i ∈ tx.inputs, S.entries[i.previousOutput]? = none → parents[i.previousOutput.txid]? = some () :=
      fun i hi hnone => ((resolveInputs_ok hres).1 _).mpr (.inr ⟨i, hi, rfl, hnone⟩)
    have hsum := sumEntries_ok hin
    have h0 : (0 : UInt64).toNat = 0 := rfl
    rw [h0, Nat.zero_add] at hsum
    refine ⟨hknown, hadm.stateless, hadm.regular, hsize, es.map (·.output), totalOut, ?_, ?_, hout, ?_⟩
    · rw [List.forall₂_map_right_iff]
      have hboth := List.forall₂_iff_get.mp hnew
      refine List.forall₂_iff_get.mpr ⟨hboth.1, fun n hn hn' => ?_⟩
      apply (hboth.2 n hn hn').spends hm hpay
      · intro hnone
        exact commit_up_of (.inr ⟨rfl, hrow _ (List.get_mem _ _) hnone⟩)
      · exact authorized_spendable hv hauth _ (List.get_mem _ _)
    · rw [← hsum]
      exact totalIn.toNat_lt
    · have hsub := UInt64.toNat_sub_of_le _ _ hle
      have hle := UInt64.le_iff_toNat_le.mp hle
      show (totalIn - totalOut).toNat + totalOut.toNat = _
      omega
  · exact (hpay₁ id e he).mono fun p hup => commit_up_of (.inl ⟨hne, hup⟩)

theorem payable_admission (now : UInt64) (hv : RefusesCarriers verifier)
    (hknown : tx.encodable = true → Known strings tx) (hm : IndexedPool H m) (hpay : PoolPayable H S strings m) :
    PoolPayable H S strings (m.admitTransaction H tx S verifier now).1 :=
  admission_cut hpay (fun hr => hr.cut.payable hpay) fun hadm _ hr hk =>
    payable_commit hadm hv (hknown hadm.encodable) hm hpay hk (hadm.fresh_after hr)

end

theorem payable_withConfig (maxCount maxBytes : Nat) (minFeeRate : UInt64) :
    PoolPayable H S strings (withConfig maxCount maxBytes minFeeRate) := by
  intro id e he
  have he : (∅ : Table Hash256 MempoolEntry)[id]? = some e := he
  rw [Table.get_empty] at he
  cases he

end Mempool

/-- An admission against the set, by a verifier of a kind, of a transaction with one of the
    given encodings; the pool and the transaction are in memory together. -/
def PoolOp.AdmitsAgainst (S : UtxoSet) (strings : List Bytes) (accepts : AuthorizationVerifier → Prop) (m : Mempool) : PoolOp → Prop
  | .admitTx tx utxos verifier _ =>
    utxos = S ∧ accepts verifier ∧ tx.sized ∧ tx.canonicalBytes ∈ strings ∧ m.totalBytes + tx.encodedSize < 2 ^ 64
  | .remove _ => False
  | .connect _ _ => False
  | .reorg _ _ _ _ => False

theorem PoolRun.payable {accepts : AuthorizationVerifier → Prop} (haccepts : ∀ verifier, accepts verifier → RefusesCarriers verifier)
    (h : PoolRun H (PoolOp.AdmitsAgainst S strings accepts) m) : PoolPayable H S strings m := by
  refine (h.keeps (P := fun m => IndexedPool H m ∧ PoolPayable H S strings m) (fun maxCount maxBytes minFeeRate =>
    ⟨(Mempool.coherent_withConfig maxCount maxBytes minFeeRate).indexed,
      Mempool.payable_withConfig maxCount maxBytes minFeeRate⟩) ?_).2
  intro m op ⟨hm, hpay⟩ hop
  cases op with
  | admitTx tx utxos verifier now =>
    obtain ⟨rfl, hv, hsized, hencoded, -⟩ := hop
    exact ⟨Mempool.indexed_admission tx utxos verifier now hm,
      Mempool.payable_admission now (haccepts _ hv) (fun hencodable => ⟨hencoded, hencodable, hsized⟩) hm hpay⟩
  | remove txid => exact hop.elim
  | connect block utxos => exact hop.elim
  | reorg txs utxos verifier now => exact hop.elim

end Scytale
